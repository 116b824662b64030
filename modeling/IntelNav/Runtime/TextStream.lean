import IntelNav.Runtime.Tokenizer
import IntelNav.Text.Lossy
import Mathlib.Data.List.Induction

/-! The text that the incremental decoder emits, for byte-level tokenizers
(`crates/runtime/src/tokenizer.rs`). -/

set_option autoImplicit false
set_option relaxedAutoImplicit false

namespace IntelNav.Runtime

open IntelNav.Text

def ByteLevel (tok : Tok) (bytes : UInt32 → List UInt8) : Prop :=
  ∀ ids, tok.decode ids = .ok (String.ofList (lossy (ids.flatMap bytes)))

namespace IncrementalDecoder

def next (tok : Tok) (td : String × IncrementalDecoder) (id : UInt32) :
    Except DecodeError (String × IncrementalDecoder) := do
  let (chunk, d) ← td.2.push tok id
  pure (td.1 ++ chunk.getD "", d)

/-- Push ids one after the other: the chunks put together, and the decoder after them. -/
def pushAll (tok : Tok) (ids : List UInt32) : Except DecodeError (String × IncrementalDecoder) :=
  ids.foldlM (next tok) ("", .new)

end IncrementalDecoder

def ValidUtf8 (bs : List UInt8) : Prop := ∃ cs, encode cs = bs

/-- No push panics, and whenever the bytes pushed are valid UTF-8, the text emitted so far is what
they decode to. -/
def TextIsDecoded (tok : Tok) (bytes : UInt32 → List UInt8) (ids : List UInt32) : Prop :=
  ∀ seen, seen <+: ids → ∃ text d, IncrementalDecoder.pushAll tok seen = .ok (text, d) ∧
    (ValidUtf8 (seen.flatMap bytes) → tok.decode seen = .ok text)

section Texts

variable (bytes : UInt32 → List UInt8)

def scanned (ids : List UInt32) : Scan := scan (ids.flatMap bytes)

inductive Emits : List UInt32 → List Char → Prop
  | start : Emits [] []
  | nothing {seen : List UInt32} {text : List Char} (id : UInt32) : Emits seen text →
      size (scanned bytes (seen ++ [id])).text ≤ size text → Emits (seen ++ [id]) text
  | chunk {seen : List UInt32} {text pre post : List Char} (id : UInt32) : Emits seen text →
      (scanned bytes (seen ++ [id])).text = pre ++ post → size pre = size text → post ≠ [] →
      Emits (seen ++ [id]) (text ++ post)

/-- Where a push ends inside a character, the character that is there in every later text takes
three bytes, or takes two and is followed by one of a single byte, if any; and it is U+FFFD in the
texts whose bytes are valid. -/
def SplitsHarmless (ids : List UInt32) : Prop :=
  ∀ seen later x rest, seen <+: later → later <+: ids → (scanned bytes seen).tail ≠ [] →
    (scanned bytes later).text = (scanned bytes seen).out ++ x :: rest →
      (x.utf8Size = 3 ∨ x.utf8Size = 2 ∧ ∀ d ∈ rest.head?, d.utf8Size = 1) ∧
        (ValidUtf8 (later.flatMap bytes) → x = replacement)

end Texts

/-! One push. -/

theorem utf8ByteSize_ofList (cs : List Char) : (String.ofList cs).utf8ByteSize = size cs := by
  rw [← String.size_toByteArray, String.toByteArray_ofList, List.utf8Encode, List.size_toByteArray]
  rfl

private theorem textFrom_ofList (cs : List Char) (n : Nat) :
    textFrom (String.ofList cs) n = String.fromUTF8? ⟨((encode cs).drop n).toArray⟩ := by
  unfold textFrom
  congr 1
  apply ByteArray.ext
  rw [utf8ByteSize_ofList, ByteArray.data_extract]
  change (String.ofList cs).toByteArray.data.extract n (size cs) = _
  rw [String.toByteArray_ofList, List.utf8Encode, List.data_toByteArray]
  change (encode cs).toArray.extract n (encode cs).length = _
  rw [List.extract_toArray, List.extract_eq_take_drop, List.take_of_length_le]
  exact Nat.le_of_eq (List.length_drop ..)

private theorem textFrom_append (pre post : List Char) :
    textFrom (String.ofList (pre ++ post)) (size pre) = some (String.ofList post) := by
  have hdrop : (encode pre ++ encode post).drop (size pre) = encode post := List.drop_left
  rw [textFrom_ofList, encode_append, hdrop, fromUTF8?_encode]

private theorem exists_split_of_textFrom {cs : List Char} {n : Nat} {delta : String}
    (h : textFrom (String.ofList cs) n = some delta) (hn : n ≤ size cs) :
    ∃ pre post, cs = pre ++ post ∧ size pre = n ∧ delta = String.ofList post := by
  rw [textFrom_ofList] at h
  have hbytes : (encode cs).drop n = encode delta.toList := (encode_of_fromUTF8? h).symm
  obtain ⟨pre, hsplit, hsize⟩ := exists_split_of_drop hbytes hn
  exact ⟨pre, delta.toList, hsplit, hsize, String.ofList_toList.symm⟩

section Emission

variable {tok : Tok} {bytes : UInt32 → List UInt8}

private theorem push_eq (hbyte : ByteLevel tok bytes) (seen : List UInt32) (n : Nat) (id : UInt32) :
    IncrementalDecoder.push ⟨seen, n⟩ tok id =
      let all := (scanned bytes (seen ++ [id])).text
      if size all ≤ n then .ok (none, ⟨seen ++ [id], n⟩)
      else
        match textFrom (String.ofList all) n with
        | none => .error .panic
        | some delta => .ok (some delta, ⟨seen ++ [id], size all⟩) := by
  rw [IncrementalDecoder.push, hbyte]
  simp only [utf8ByteSize_ofList]
  rfl

theorem pushAll_concat (tok : Tok) (seen : List UInt32) (id : UInt32) :
    IncrementalDecoder.pushAll tok (seen ++ [id]) =
      IncrementalDecoder.pushAll tok seen >>= (IncrementalDecoder.next tok · id) := by
  rw [IncrementalDecoder.pushAll, List.foldlM_append]
  simp only [List.foldlM, bind_pure]
  rfl

private theorem next_eq_ok (hbyte : ByteLevel tok bytes) {seen : List UInt32} {cs : List Char}
    {id : UInt32} {text : String} {d : IncrementalDecoder} :
    IncrementalDecoder.next tok (String.ofList cs, ⟨seen, size cs⟩) id = .ok (text, d) ↔
      let all := (scanned bytes (seen ++ [id])).text
      size all ≤ size cs ∧ text = String.ofList cs ∧ d = ⟨seen ++ [id], size cs⟩ ∨
        ∃ pre post, all = pre ++ post ∧ size pre = size cs ∧ post ≠ [] ∧
          text = String.ofList (cs ++ post) ∧ d = ⟨seen ++ [id], size (cs ++ post)⟩ := by
  rw [IncrementalDecoder.next, push_eq hbyte]
  dsimp only
  generalize (scanned bytes (seen ++ [id])).text = all
  by_cases hle : size all ≤ size cs
  · rw [if_pos hle]
    change Except.ok (String.ofList cs ++ "", _) = Except.ok (text, d) ↔ _
    rw [String.append_empty, Except.ok.injEq, Prod.mk.injEq]
    constructor
    · intro h
      exact .inl ⟨hle, h.1.symm, h.2.symm⟩
    · intro h
      rcases h with ⟨-, htext, hd⟩ | ⟨pre, post, rfl, hsize, hpost, -, -⟩
      · exact ⟨htext.symm, hd.symm⟩
      · have hpos : size post ≠ 0 := fun h => hpost (eq_nil_of_size h)
        rw [size_append] at hle
        omega
  · rw [if_neg hle]
    have hlt : size cs ≤ size all := by omega
    constructor
    · intro h
      cases hslice : textFrom (String.ofList all) (size cs) with
      | none =>
          rw [hslice] at h
          cases h
      | some delta =>
          rw [hslice] at h
          obtain ⟨pre, post, rfl, hsize, rfl⟩ := exists_split_of_textFrom hslice hlt
          obtain ⟨rfl, rfl⟩ := Prod.mk.inj (Except.ok.inj h)
          right
          refine ⟨pre, post, rfl, hsize, ?_, ?_, ?_⟩
          · intro hnil
            rw [hnil, List.append_nil] at hle
            omega
          · exact String.ofList_append.symm
          · rw [size_append, size_append, hsize]
    · intro h
      rcases h with ⟨hle', -, -⟩ | ⟨pre, post, rfl, hsize, -, htext, hd⟩
      · exact absurd hle' hle
      · rw [← hsize, textFrom_append, htext, hd, String.ofList_append, size_append, size_append,
          hsize]
        rfl

private theorem emits_concat {seen : List UInt32} {id : UInt32} {cs : List Char} :
    Emits bytes (seen ++ [id]) cs ↔ ∃ text, Emits bytes seen text ∧
      (size (scanned bytes (seen ++ [id])).text ≤ size text ∧ cs = text ∨
        ∃ pre post, (scanned bytes (seen ++ [id])).text = pre ++ post ∧ size pre = size text ∧
          post ≠ [] ∧ cs = text ++ post) := by
  constructor
  · intro h
    generalize hids : seen ++ [id] = ids at h
    cases h with
    | start => simp at hids
    | nothing id' h hle =>
        obtain ⟨rfl, hid⟩ := List.append_inj' hids rfl
        obtain rfl := List.singleton_inj.mp hid
        exact ⟨_, h, .inl ⟨hle, rfl⟩⟩
    | chunk id' h hsplit hsize hpost =>
        obtain ⟨rfl, hid⟩ := List.append_inj' hids rfl
        obtain rfl := List.singleton_inj.mp hid
        exact ⟨_, h, .inr ⟨_, _, hsplit, hsize, hpost, rfl⟩⟩
  · intro ⟨text, h, hcase⟩
    rcases hcase with ⟨hle, rfl⟩ | ⟨pre, post, hsplit, hsize, hpost, rfl⟩
    · exact .nothing id h hle
    · exact .chunk id h hsplit hsize hpost

private theorem emits_nil {cs : List Char} : Emits bytes [] cs ↔ cs = [] := by
  constructor
  · intro h
    generalize hids : ([] : List UInt32) = ids at h
    cases h with
    | start => rfl
    | nothing => simp at hids
    | chunk => simp at hids
  · intro h
    rw [h]
    exact .start

private theorem pushAll_eq_ok (hbyte : ByteLevel tok bytes) {seen : List UInt32} {text : String}
    {d : IncrementalDecoder} :
    IncrementalDecoder.pushAll tok seen = .ok (text, d) ↔
      ∃ cs, Emits bytes seen cs ∧ text = String.ofList cs ∧ d = ⟨seen, size cs⟩ := by
  induction seen using List.reverseRecOn generalizing text d with
  | nil =>
      simp only [emits_nil, exists_eq_left]
      change Except.ok ("", IncrementalDecoder.new) = _ ↔ _
      rw [Except.ok.injEq, Prod.mk.injEq, eq_comm, eq_comm (b := d)]
      rfl
  | append_singleton seen id ih =>
      rw [pushAll_concat]
      constructor
      · intro h
        cases hseen : IncrementalDecoder.pushAll tok seen with
        | error e =>
            rw [hseen] at h
            cases h
        | ok td =>
            rw [hseen] at h
            obtain ⟨cs, hemits, htext, hd⟩ := ih.mp hseen
            obtain rfl : td = (String.ofList cs, ⟨seen, size cs⟩) := Prod.ext htext hd
            rcases (next_eq_ok hbyte).mp h with ⟨hle, htext', hd'⟩ |
              ⟨pre, post, hsplit, hsize, hpost, htext', hd'⟩
            · exact ⟨cs, .nothing id hemits hle, htext', hd'⟩
            · exact ⟨cs ++ post, .chunk id hemits hsplit hsize hpost, htext', hd'⟩
      · intro ⟨cs, hemits, htext, hd⟩
        obtain ⟨before, hbefore, hcase⟩ := emits_concat.mp hemits
        rw [ih.mpr ⟨before, hbefore, rfl, rfl⟩]
        refine (next_eq_ok hbyte).mpr ?_
        rcases hcase with ⟨hle, rfl⟩ | ⟨pre, post, hsplit, hsize, hpost, rfl⟩
        · exact .inl ⟨hle, htext, hd⟩
        · exact .inr ⟨pre, post, hsplit, hsize, hpost, htext, hd⟩

theorem Emits.unique (hbyte : ByteLevel tok bytes) {seen : List UInt32} {cs ds : List Char}
    (h : Emits bytes seen cs) (h' : Emits bytes seen ds) : cs = ds := by
  have hcs := (pushAll_eq_ok hbyte).mpr ⟨cs, h, rfl, rfl⟩
  have hds := (pushAll_eq_ok hbyte).mpr ⟨ds, h', rfl, rfl⟩
  rw [hcs] at hds
  exact String.ofList_injective (Prod.mk.inj (Except.ok.inj hds)).1

/-! What later ids change. -/

private theorem scanned_append (seen more : List UInt32) :
    scanned bytes (seen ++ more) = (scanned bytes seen).run (more.flatMap bytes) := by
  rw [scanned, List.flatMap_append, scan_append]
  rfl

private theorem out_mono {seen later : List UInt32} (h : seen <+: later) :
    (scanned bytes seen).out <+: (scanned bytes later).out := by
  obtain ⟨more, rfl⟩ := h
  rw [scanned_append]
  exact Scan.out_prefix_run _ _

/-- Where a push ended inside a character, nothing has changed since, or a character of two bytes
or more is there. -/
private theorem text_later {seen later : List UInt32} (h : seen <+: later)
    (htail : (scanned bytes seen).tail ≠ []) :
    (scanned bytes later).text = (scanned bytes seen).text ∨
      ∃ x rest, (scanned bytes later).text = (scanned bytes seen).out ++ x :: rest ∧
        2 ≤ x.utf8Size := by
  obtain ⟨more, rfl⟩ := h
  rw [scanned_append]
  rcases Scan.run_cases (scanned bytes seen) (more.flatMap bytes) with ⟨hout, hstill⟩ |
    ⟨x, rest, hout, hx⟩
  · left
    rw [Scan.text_of_tail (hstill htail), Scan.text_of_tail htail, hout]
  · right
    obtain ⟨last, hlast⟩ := Scan.out_prefix_text ((scanned bytes seen).run (more.flatMap bytes))
    refine ⟨x, rest ++ last, ?_, hx htail⟩
    rw [← hlast, hout, List.append_assoc, List.cons_append]

private theorem size_text_of_tail {seen : List UInt32} (htail : (scanned bytes seen).tail ≠ []) :
    size (scanned bytes seen).text = size (scanned bytes seen).out + 3 := by
  rw [Scan.text_of_tail htail, size_append, size_cons, utf8Size_replacement, size_nil]

private theorem prefix_out_of_split {s : Scan} {pre post : List Char} (h : s.text = pre ++ post)
    (hpost : post ≠ []) : pre <+: s.out := by
  by_cases htail : s.tail = []
  · rw [Scan.text_of_tail_nil htail] at h
    exact ⟨post, h.symm⟩
  · obtain ⟨init, last, rfl⟩ := (List.eq_nil_or_concat' post).resolve_left hpost
    rw [Scan.text_of_tail htail, ← List.append_assoc] at h
    exact ⟨init, (List.append_inj' h rfl).1.symm⟩

/-! What has been emitted. -/

private theorem Emits.size_le {seen : List UInt32} {cs : List Char} (h : Emits bytes seen cs) :
    size (scanned bytes seen).text ≤ size cs := by
  cases h with
  | start => exact Nat.le_refl 0
  | nothing _ _ hle => exact hle
  | chunk _ _ hsplit hsize _ =>
      rw [hsplit, size_append, size_append]
      omega

/-- Where a push ended inside a character, what stands for it has been emitted; else one byte more
than was read has been at most, of a character that has turned out to be shorter. -/
theorem Emits.ends {seen : List UInt32} {cs : List Char} (h : Emits bytes seen cs) :
    if (scanned bytes seen).tail = [] then size cs ≤ size (scanned bytes seen).out + 1
    else ∃ before, cs = before ++ [replacement] ∧ size before = size (scanned bytes seen).out := by
  have hrep := utf8Size_replacement
  -- The texts of a step: how much longer they are, and what has been emitted before it.
  have hstep : ∀ {seen : List UInt32} {cs : List Char} (id : UInt32),
      (if (scanned bytes seen).tail = [] then size cs ≤ size (scanned bytes seen).out + 1
        else ∃ before, cs = before ++ [replacement] ∧
          size before = size (scanned bytes seen).out) →
      size cs ≤ size (scanned bytes (seen ++ [id])).out + 1 ∨
        (scanned bytes (seen ++ [id])).tail ≠ [] ∧ ∃ before, cs = before ++ [replacement] ∧
          size before = size (scanned bytes (seen ++ [id])).out := by
    intro seen cs id hends
    have hmono := size_mono (@out_mono bytes _ _ (List.prefix_append seen [id]))
    split at hends
    · left
      omega
    · rename_i htail
      obtain ⟨before, hcs, hbefore⟩ := hends
      rw [scanned_append] at hmono ⊢
      rcases Scan.run_cases (scanned bytes seen) ([id].flatMap bytes) with ⟨hout, hstill⟩ |
        ⟨x, rest, hout, hx⟩
      · right
        rw [hout]
        exact ⟨hstill htail, before, hcs, hbefore⟩
      · left
        have hlong := hx htail
        rw [hout, hcs, size_append, size_append, size_cons, size_cons, size_nil]
        omega
  induction h with
  | start => exact Nat.zero_le 1
  | @nothing seen cs id _ hle ih =>
      rcases hstep id ih with hshort | ⟨htail, hends⟩
      · split
        · exact hshort
        · rename_i htail
          rw [size_text_of_tail htail] at hle
          omega
      · rw [if_neg htail]
        exact hends
  | @chunk seen cs pre post id _ hsplit hsize hpost _ =>
      split
      · rename_i htail
        rw [Scan.text_of_tail_nil htail] at hsplit
        rw [hsplit, size_append, size_append]
        omega
      · rename_i htail
        obtain ⟨init, last, rfl⟩ := (List.eq_nil_or_concat' post).resolve_left hpost
        rw [Scan.text_of_tail htail, ← List.append_assoc] at hsplit
        obtain ⟨hout, hlast⟩ := List.append_inj' hsplit rfl
        obtain rfl := List.singleton_inj.mp hlast
        refine ⟨cs ++ init, (List.append_assoc ..).symm, ?_⟩
        rw [hout, size_append, size_append, hsize]

theorem Emits.mono (hbyte : ByteLevel tok bytes) {seen later : List UInt32} {cs ds : List Char}
    (h : Emits bytes seen cs) (hlater : Emits bytes later ds) (hstart : seen <+: later) :
    cs <+: ds := by
  have hsame : ∀ {ids : List UInt32} {es : List Char}, Emits bytes ids es → seen = ids →
      cs <+: es := by
    intro ids es hes heq
    have hcs := Emits.unique hbyte h (heq ▸ hes)
    exact hcs ▸ List.prefix_refl cs
  induction hlater with
  | start => exact hsame .start (List.prefix_nil.mp hstart)
  | nothing id hbefore hle ih =>
      rcases List.prefix_concat_iff.mp hstart with heq | hin
      · exact hsame (.nothing id hbefore hle) heq
      · exact ih hin
  | chunk id hbefore hsplit hsize hpost ih =>
      rcases List.prefix_concat_iff.mp hstart with heq | hin
      · exact hsame (.chunk id hbefore hsplit hsize hpost) heq
      · exact (ih hin).trans (List.prefix_append _ _)

/-- After a push ended inside a character, nothing is emitted until the text has a boundary three
bytes after what was read. -/
theorem Emits.past {seen later : List UInt32} {cs : List Char} (hlater : Emits bytes later cs)
    (htail : (scanned bytes seen).tail ≠ []) (hstart : seen <+: later) :
    size cs = size (scanned bytes seen).out + 3 ∨
      ∃ pre, pre <+: (scanned bytes later).out ∧ size pre = size (scanned bytes seen).out + 3 := by
  have hhere : ∀ {ids : List UInt32} {es : List Char}, Emits bytes ids es → seen = ids →
      size es = size (scanned bytes seen).out + 3 := by
    intro ids es hes heq
    have hends := hes.ends
    rw [← heq, if_neg htail] at hends
    obtain ⟨before, hes', hbefore⟩ := hends
    rw [hes', size_append, size_cons, utf8Size_replacement, size_nil, hbefore]
  have hkeep : ∀ (ids : List UInt32) (id : UInt32),
      (∃ pre, pre <+: (scanned bytes ids).out ∧
        size pre = size (scanned bytes seen).out + 3) →
      ∃ pre, pre <+: (scanned bytes (ids ++ [id])).out ∧
        size pre = size (scanned bytes seen).out + 3 := by
    intro ids id ⟨pre, hpre, hsize⟩
    exact ⟨pre, hpre.trans (out_mono (List.prefix_append ids [id])), hsize⟩
  induction hlater with
  | start => exact .inl (hhere .start (List.prefix_nil.mp hstart))
  | @nothing ids es id hbefore hle ih =>
      rcases List.prefix_concat_iff.mp hstart with heq | hin
      · exact .inl (hhere (.nothing id hbefore hle) heq)
      · exact (ih hin).imp_right (hkeep ids id)
  | @chunk ids es pre post id hbefore hsplit hsize hpost ih =>
      rcases List.prefix_concat_iff.mp hstart with heq | hin
      · exact .inl (hhere (.chunk id hbefore hsplit hsize hpost) heq)
      · right
        rcases ih hin with hsame | hpast
        · exact ⟨pre, prefix_out_of_split hsplit hpost, by rw [hsize, hsame]⟩
        · exact hkeep ids id hpast

/-! When all is emitted. -/

private theorem decode_eq (hbyte : ByteLevel tok bytes) (seen : List UInt32) (cs : List Char) :
    tok.decode seen = .ok (String.ofList cs) ↔ cs = (scanned bytes seen).text := by
  rw [hbyte, Except.ok.injEq, String.ofList_inj]
  exact eq_comm

private theorem size_of_not_cut {seen later : List UInt32} {cs rest : List Char} {x : Char}
    (h : Emits bytes later cs) (hstart : seen <+: later) (htail : (scanned bytes seen).tail ≠ [])
    (htext : (scanned bytes later).text = (scanned bytes seen).out ++ x :: rest) :
    x.utf8Size = 3 ∨ x.utf8Size = 2 ∧ ∀ d ∈ rest.head?, d.utf8Size = 1 := by
  have hrep := utf8Size_replacement
  rcases text_later hstart htail with hsame | ⟨y, more, hmore, hy⟩
  · rw [Scan.text_of_tail htail, htext] at hsame
    have hx := List.append_cancel_left hsame
    obtain ⟨rfl, -⟩ := List.cons.inj hx
    exact .inl hrep
  · rw [htext] at hmore
    obtain ⟨rfl, rfl⟩ := List.cons.inj (List.append_cancel_left hmore)
    rcases h.past htail hstart with hsize | ⟨pre, hpre, hsize⟩
    · have hle := h.size_le
      rw [htext, size_append, size_cons, hsize] at hle
      cases rest with
      | nil =>
          rw [size_nil] at hle
          by_cases hthree : x.utf8Size = 3
          · exact .inl hthree
          · exact .inr ⟨by omega, by simp⟩
      | cons d rest =>
          have hd := d.utf8Size_pos
          rw [size_cons] at hle
          refine .inr ⟨by omega, ?_⟩
          simp only [List.head?_cons, Option.mem_some_iff, forall_eq']
          omega
    · have hin : pre <+: (scanned bytes seen).out ++ x :: rest := by
        rw [← htext]
        exact hpre.trans (Scan.out_prefix_text _)
      rcases List.prefix_or_prefix_of_prefix hin (List.prefix_append _ _) with hshort | ⟨t, rfl⟩
      · have hle := size_mono hshort
        omega
      · rw [size_append] at hsize
        exact size_of_prefix_three (List.prefix_append_right_inj _ |>.mp hin) (by omega) hy

private theorem text_prefix_of_harmless {ids seen later : List UInt32}
    (hharm : SplitsHarmless bytes ids)
    (hstart : seen <+: later) (hlater : later <+: ids) (hvalid : ValidUtf8 (later.flatMap bytes)) :
    (scanned bytes seen).text <+: (scanned bytes later).text := by
  by_cases htail : (scanned bytes seen).tail = []
  · rw [Scan.text_of_tail_nil htail]
    exact (out_mono hstart).trans (Scan.out_prefix_text _)
  · rcases text_later hstart htail with hsame | ⟨x, rest, htext, -⟩
    · exact ⟨[], by rw [List.append_nil, hsame]⟩
    · have hx := (hharm seen later x rest hstart hlater htail htext).2 hvalid
      rw [Scan.text_of_tail htail, htext, hx]
      exact ⟨rest, by simp⟩

private theorem Emits.prefix_of_texts {seen : List UInt32} {cs ds : List Char}
    (h : Emits bytes seen cs)
    (htexts : ∀ ids, ids <+: seen → (scanned bytes ids).text <+: ds) : cs <+: ds := by
  induction h with
  | start => exact List.nil_prefix
  | nothing id _ _ ih =>
      exact ih fun ids hids => htexts ids (hids.trans (List.prefix_append _ _))
  | @chunk seen cs pre post id _ hsplit hsize _ ih =>
      have hcs := ih fun ids hids => htexts ids (hids.trans (List.prefix_append _ _))
      have htext := htexts _ (List.prefix_refl (seen ++ [id]))
      have hpre : pre <+: ds := by
        rw [hsplit] at htext
        exact (List.prefix_append pre post).trans htext
      rw [← eq_of_prefix_of_size hpre hcs hsize, ← hsplit]
      exact htext

private theorem exists_cut_of_harmless {ids seen later : List UInt32}
    (hharm : SplitsHarmless bytes ids) (hstart : seen <+: later) (hlater : later <+: ids)
    (hlonger : size (scanned bytes seen).text < size (scanned bytes later).text) :
    ∃ pre, pre <+: (scanned bytes later).text ∧ size pre = size (scanned bytes seen).text := by
  by_cases htail : (scanned bytes seen).tail = []
  · refine ⟨(scanned bytes seen).out, ?_, by rw [Scan.text_of_tail_nil htail]⟩
    exact (out_mono hstart).trans (Scan.out_prefix_text _)
  · have hsize := size_text_of_tail htail
    rcases text_later hstart htail with hsame | ⟨x, rest, htext, -⟩
    · rw [hsame] at hlonger
      omega
    · rw [htext, size_append, size_cons] at hlonger
      rcases (hharm seen later x rest hstart hlater htail htext).1 with hthree | ⟨htwo, hone⟩
      · refine ⟨(scanned bytes seen).out ++ [x], ⟨rest, by rw [htext]; simp⟩, ?_⟩
        rw [hsize, size_append, size_cons, size_nil, hthree]
      · cases rest with
        | nil =>
            rw [size_nil] at hlonger
            omega
        | cons d rest =>
            have hd : d.utf8Size = 1 := hone d rfl
            refine ⟨(scanned bytes seen).out ++ [x, d], ⟨rest, by rw [htext]; simp⟩, ?_⟩
            rw [hsize, size_append, size_cons, size_cons, size_nil, htwo, hd]

private theorem exists_emits {ids : List UInt32} (hharm : SplitsHarmless bytes ids)
    (seen : List UInt32) (hseen : seen <+: ids) :
    ∃ cs, Emits bytes seen cs ∧ ∃ longest, longest <+: seen ∧
      size cs = size (scanned bytes longest).text := by
  induction seen using List.reverseRecOn with
  | nil => exact ⟨[], .start, [], List.prefix_refl _, rfl⟩
  | append_singleton seen id ih =>
      have hbefore : seen <+: seen ++ [id] := List.prefix_append _ _
      obtain ⟨cs, hemits, longest, hlongest, hsize⟩ := ih (hbefore.trans hseen)
      by_cases hle : size (scanned bytes (seen ++ [id])).text ≤ size cs
      · exact ⟨cs, .nothing id hemits hle, longest, hlongest.trans hbefore, hsize⟩
      · obtain ⟨pre, ⟨post, hsplit⟩, hpre⟩ := exists_cut_of_harmless hharm
          (hlongest.trans hbefore) hseen (by omega)
        rw [← hsize] at hpre
        have hpost : post ≠ [] := by
          intro hnil
          rw [hnil, List.append_nil] at hsplit
          rw [← hsplit] at hle
          omega
        refine ⟨cs ++ post, .chunk id hemits hsplit.symm hpre hpost, seen ++ [id],
          List.prefix_refl _, ?_⟩
        rw [← hsplit, size_append, size_append, hpre]

/-- The emitted text is the decoded one just when no character that matters is split. -/
theorem textIsDecoded_iff (hbyte : ByteLevel tok bytes) (ids : List UInt32) :
    TextIsDecoded tok bytes ids ↔ SplitsHarmless bytes ids := by
  constructor
  · intro h seen later x rest hstart hlater htail htext
    obtain ⟨_, _, hpush, hdecoded⟩ := h later hlater
    obtain ⟨cs, hemits, rfl, -⟩ := (pushAll_eq_ok hbyte).mp hpush
    refine ⟨size_of_not_cut hemits hstart htail htext, fun hvalid => ?_⟩
    -- What stands for the split character was emitted, and is part of the text.
    have hcs : cs = (scanned bytes later).text := (decode_eq hbyte later cs).mp (hdecoded hvalid)
    obtain ⟨_, _, hpush', -⟩ := h seen (hstart.trans hlater)
    obtain ⟨ds, hemits', -, -⟩ := (pushAll_eq_ok hbyte).mp hpush'
    have hends := hemits'.ends
    rw [if_neg htail] at hends
    obtain ⟨before, rfl, hsize⟩ := hends
    have hds := hemits'.mono hbyte hemits hstart
    rw [hcs, htext] at hds
    have hbefore : before = (scanned bytes seen).out :=
      eq_of_prefix_of_size ((List.prefix_append _ _).trans hds) (List.prefix_append _ _) hsize
    rw [hbefore, List.prefix_append_right_inj] at hds
    exact (List.cons_prefix_cons.mp hds).1.symm
  · intro hharm seen hseen
    obtain ⟨cs, hemits, -⟩ := exists_emits hharm seen hseen
    refine ⟨_, _, (pushAll_eq_ok hbyte).mpr ⟨cs, hemits, rfl, rfl⟩, fun hvalid => ?_⟩
    have hcs : cs <+: (scanned bytes seen).text := hemits.prefix_of_texts fun ids hids =>
      text_prefix_of_harmless hharm hids hseen hvalid
    have hsize : size cs = size (scanned bytes seen).text :=
      Nat.le_antisymm (size_mono hcs) hemits.size_le
    exact (decode_eq hbyte seen cs).mpr (eq_of_prefix_of_size hcs (List.prefix_refl _) hsize)

end Emission

/-- Tokens of a byte-level tokenizer that split characters: é in two halves, and three bytes of
four of an emoji. -/
def splitting (id : UInt32) : List UInt8 :=
  match id.toNat with
  | 0 => [0xc3]
  | 1 => [0xa9]
  | 2 => [0x68, 0xc3, 0xa9]
  | 3 => [0xf0, 0x9f, 0x98]
  | n => [UInt8.ofNat n]

def splittingTok : Tok where
  encode _ := .ok []
  decode ids := .ok (String.ofList (lossy (ids.flatMap splitting)))
  eosIds := []

theorem textIsDecoded_iff_hey :
    TextIsDecoded splittingTok splitting [2, 121] ↔ SplitsHarmless splitting [2, 121] :=
  textIsDecoded_iff (fun _ => rfl) [2, 121]

/-- Half of é is shown as U+FFFD for good, and the last byte of an emoji makes the decoder panic. -/
theorem split_characters_lost :
    IncrementalDecoder.pushAll splittingTok [0, 1] = .ok ("\uFFFD", ⟨[0, 1], 3⟩) ∧
      IncrementalDecoder.pushAll splittingTok [3, 0x80] = .error .panic ∧
      ¬ TextIsDecoded splittingTok splitting [0, 1] ∧
      ¬ TextIsDecoded splittingTok splitting [3, 0x80] := by
  have hhalves : IncrementalDecoder.pushAll splittingTok [0, 1] =
      .ok ("\uFFFD", ⟨[0, 1], 3⟩) := by decide +kernel
  have hemoji : IncrementalDecoder.pushAll splittingTok [3, 0x80] = .error .panic := by
    decide +kernel
  refine ⟨hhalves, hemoji, ?_, ?_⟩
  · intro h
    obtain ⟨text, d, hpush, hdecoded⟩ := h [0, 1] (List.prefix_refl _)
    have hvalid : ValidUtf8 ([0, 1].flatMap splitting) := ⟨['é'], by decide +kernel⟩
    have hletter : splittingTok.decode [0, 1] = .ok "é" := by decide +kernel
    have htext : text = "\uFFFD" := (Prod.mk.inj (Except.ok.inj (hpush.symm.trans hhalves))).1
    have hsame := Except.ok.inj (hletter.symm.trans (hdecoded hvalid))
    rw [htext] at hsame
    revert hsame
    decide +kernel
  · intro h
    obtain ⟨text, d, hpush, -⟩ := h [3, 0x80] (List.prefix_refl _)
    rw [hemoji] at hpush
    cases hpush

end IntelNav.Runtime
