import IntelNav.Core.Types
import IntelNav.Digits.Carry
import IntelNav.Text.Utf8

/-! Peer ids as text: the `bs58` module of `crates/core/src/ids.rs`. -/

set_option autoImplicit false
set_option relaxedAutoImplicit false

namespace IntelNav.Core

open IntelNav.Reading IntelNav.Digits IntelNav.Text

/-- The sums and products of `u32`, in a build with overflow checks or without. -/
def u32 (overflowChecks : Bool) : Arith :=
  if overflowChecks then .trapping 32 else .wrapping 32

namespace Bs58

def symbols : List Char :=
  "123456789ABCDEFGHJKLMNPQRSTUVWXYZabcdefghijkmnopqrstuvwxyz".toList

/-- `ALPHABET`. -/
def alphabet : List UInt8 := symbols.map Char.toUInt8

/-- `Encoder::into_string`; `none` is a panic. -/
def intoString (ar : Arith) (input : List UInt8) : Option String := do
  let leading := (input.takeWhile (· == 0)).length
  let num ← (input.map UInt8.toNat).foldlM (pushDigit ar (· % 58) (· / 58) 256) []
  let first ← alphabet[0]?
  let digits ← num.reverse.mapM fun d => alphabet[d]?
  String.fromUTF8? ⟨(List.replicate leading first ++ digits).toArray⟩

/-- The one error of the decoder, `invalid base58 char {c:?}`. -/
structure InvalidChar where
  c : Char
  deriving DecidableEq

/-- One round of the decoder's loop. The lookup casts the character to a byte. -/
def pushChar (ar : Arith) (num : List Nat) (c : Char) : Except (Stop InvalidChar) (List Nat) :=
  match alphabet.findIdx? (· == c.toUInt8) with
  | none => .error (.failed ⟨c⟩)
  | some idx =>
      match pushDigit ar (· &&& 0xff) (· >>> 8) 58 num idx with
      | none => .error .panicked
      | some num => .ok num

/-- `Decoder::into_vec`. -/
def intoVec (ar : Arith) (input : String) : Except (Stop InvalidChar) (List UInt8) := do
  let leading := (input.toList.takeWhile (· == '1')).length
  let num ← input.toList.foldlM (pushChar ar) []
  .ok (List.replicate leading 0 ++ num.reverse.map UInt8.ofNat)

end Bs58

/-- `Error::Parse`. -/
structure ParseError where
  message : String
  deriving DecidableEq

/-- `fmt::Display`. -/
def PeerId.display (ar : Arith) (p : PeerId) : Option String := Bs58.intoString ar p.bytes.toList

/-- `FromStr::from_str`; `debug` is the standard library's `{c:?}`. -/
def PeerId.fromStr (ar : Arith) (debug : Char → String) (s : String) :
    Except (Stop ParseError) PeerId :=
  match Bs58.intoVec ar s with
  | .error .panicked => .error .panicked
  | .error (.failed e) =>
      .error (.failed ⟨"invalid peer id: invalid base58 char " ++ debug e.c⟩)
  | .ok bytes =>
      if h : bytes.length = 32 then .ok ⟨⟨bytes.toArray, by simpa using h⟩⟩
      else .error (.failed ⟨"peer id must decode to 32 bytes"⟩)

namespace Bs58

variable (overflowChecks : Bool)

/-- No sum or product of the encoder leaves `u32`. -/
private theorem columns_intoString : Columns 58 256 (u32 overflowChecks) (· % 58) (· / 58) := by
  cases overflowChecks with
  | false => exact .of_wrapping (by omega) (by norm_num) (fun _ => rfl) fun _ => rfl
  | true => exact .of_trapping (by omega) (by norm_num) (fun _ => rfl) fun _ => rfl

/-- No sum or product of the decoder leaves `u32`. -/
private theorem columns_intoVec : Columns 256 58 (u32 overflowChecks) (· &&& 0xff) (· >>> 8) := by
  have hlow : ∀ n : Nat, n &&& 0xff = n % 256 := fun n => Nat.and_two_pow_sub_one_eq_mod n 8
  have hhigh : ∀ n : Nat, n >>> 8 = n / 256 := fun n => Nat.shiftRight_eq_div_pow n 8
  cases overflowChecks with
  | false => exact .of_wrapping (by omega) (by norm_num) hlow hhigh
  | true => exact .of_trapping (by omega) (by norm_num) hlow hhigh

/-! The alphabet. -/

def symbol (d : Nat) : Char := symbols.getD d '1'

private theorem ascii_symbol : ∀ d < 58, Ascii (symbol d) := by decide

private theorem alphabet_getElem? :
    ∀ d < 58, alphabet[d]? = some (symbol d).toUInt8 := by decide +kernel

theorem findIdx?_symbol :
    ∀ d < 58, alphabet.findIdx? (· == (symbol d).toUInt8) = some d := by decide +kernel

private theorem symbol_eq_one : ∀ d < 58, symbol d = '1' ↔ d = 0 := by decide

theorem findIdx?_eq_some {b : UInt8} {d : Nat} (h : alphabet.findIdx? (· == b) = some d) :
    d < 58 ∧ (symbol d).toUInt8 = b := by
  obtain ⟨hlt, hb, -⟩ := List.findIdx?_eq_some_iff_getElem.mp h
  have hd : d < 58 := hlt
  refine ⟨hd, ?_⟩
  have hget := alphabet_getElem? d hd
  rw [List.getElem?_eq_getElem hlt] at hget
  rw [← Option.some.inj hget]
  exact eq_of_beq hb

def text (ds : List Nat) : String := String.ofList (ds.map symbol)

def octets (bs : List UInt8) : List Nat := bs.map UInt8.toNat

private theorem octets_lt (bs : List UInt8) : ∀ d ∈ octets bs, d < 256 := by
  intro d hd
  obtain ⟨b, -, rfl⟩ := List.mem_map.mp hd
  exact b.toNat_lt

private theorem map_ofNat_octets (bs : List UInt8) : (octets bs).map UInt8.ofNat = bs := by
  rw [octets, List.map_map]
  simp [Function.comp_def]

private theorem octets_map_ofNat {ds : List Nat} (h : ∀ d ∈ ds, d < 256) :
    octets (ds.map UInt8.ofNat) = ds := by
  rw [octets, List.map_map]
  refine (List.map_congr_left fun d hd => ?_).trans (List.map_id ds)
  exact UInt8.toNat_ofNat_of_lt' (h d hd)

private theorem mapM_alphabet {ds : List Nat} (h : ∀ d ∈ ds, d < 58) :
    ds.mapM (fun d => alphabet[d]?) = some ((ds.map symbol).map Char.toUInt8) := by
  induction ds with
  | nil => rfl
  | cons d ds ih =>
      rw [List.mapM_cons, alphabet_getElem? d (h d (by simp)),
        ih fun x hx => h x (List.mem_cons_of_mem _ hx)]
      rfl

private theorem ascii_text {ds : List Nat} (h : ∀ d ∈ ds, d < 58) : ∀ c ∈ (text ds).toList,
    Ascii c := by
  intro c hc
  rw [text, String.toList_ofList] at hc
  obtain ⟨d, hd, rfl⟩ := List.mem_map.mp hc
  exact ascii_symbol d (h d hd)

private theorem leadingZeros_octets (bs : List UInt8) :
    leadingZeros (octets bs) = (bs.takeWhile (· == 0)).length := by
  have hzero : ((· == 0) : Nat → Bool) ∘ UInt8.toNat = (· == 0) := by
    funext b
    rw [Function.comp_apply, Bool.eq_iff_iff, beq_iff_eq, beq_iff_eq]
    exact UInt8.toNat_inj (b := 0)
  rw [leadingZeros, octets, List.takeWhile_map, List.length_map, hzero]

private theorem intoString_eq (input : List UInt8) :
    intoString (u32 overflowChecks) input = some (text (convert 256 58 (octets input))) := by
  have hnum := (columns_intoString overflowChecks).foldlM_pushDigit (octets_lt input) 0
  rw [Nat.digits_zero] at hnum
  have hlt : ∀ d ∈ (Nat.digits 58 (value 256 (octets input))).reverse, d < 58 :=
    fun d hd => Nat.digits_lt_base (by omega) (List.mem_reverse.mp hd)
  have hlt' : ∀ d ∈ convert 256 58 (octets input), d < 58 :=
    fun d hd => lt_of_mem_convert (by omega) hd
  have hascii := ascii_text hlt'
  rw [text, String.toList_ofList] at hascii
  have hbytes : List.replicate (leadingZeros (octets input)) (symbol 0).toUInt8 ++
      ((Nat.digits 58 (value 256 (octets input))).reverse.map symbol).map Char.toUInt8 =
        encode ((convert 256 58 (octets input)).map symbol) := by
    rw [encode_ascii hascii, convert, List.map_append, List.map_append, List.map_replicate,
      List.map_replicate]
  rw [intoString, ← octets, hnum]
  simp only [Option.bind_eq_bind, Option.bind_some]
  rw [alphabet_getElem? 0 (by omega), Option.bind_some, ← value, mapM_alphabet hlt,
    Option.bind_some, ← leadingZeros_octets, hbytes, fromUTF8?_encode]
  rfl

private theorem pushChar_eq_ok (n : Nat) (c : Char) (num : List Nat) :
    pushChar (u32 overflowChecks) (Nat.digits 256 n) c = .ok num ↔
      ∃ d < 58, c.toUInt8 = (symbol d).toUInt8 ∧ num = Nat.digits 256 (n * 58 + d) := by
  have hpush := fun d => (columns_intoVec overflowChecks).pushDigit_digits n (d := d)
  unfold pushChar
  constructor
  · intro h
    cases hidx : alphabet.findIdx? (· == c.toUInt8) with
    | none => simp [hidx] at h
    | some d =>
        obtain ⟨hd, hc⟩ := findIdx?_eq_some hidx
        rw [hidx] at h
        simp only [hpush d hd] at h
        exact ⟨d, hd, hc.symm, (Except.ok.inj h).symm⟩
  · rintro ⟨d, hd, hc, rfl⟩
    rw [hc, findIdx?_symbol d hd]
    simp only [hpush d hd]

/-- The invariant of the decoder's loop: the vector is the number of the digits read. -/
private theorem foldlM_pushChar_eq_ok (cs : List Char) (n : Nat) (num : List Nat) :
    cs.foldlM (pushChar (u32 overflowChecks)) (Nat.digits 256 n) = .ok num ↔
      ∃ ds : List Nat, (∀ d ∈ ds, d < 58) ∧
        cs.map Char.toUInt8 = (ds.map symbol).map Char.toUInt8 ∧
        num = Nat.digits 256 (ds.foldl (fun n d => n * 58 + d) n) := by
  induction cs generalizing n with
  | nil =>
      constructor
      · intro h
        exact ⟨[], by simp, rfl, (Except.ok.inj h).symm⟩
      · rintro ⟨ds, -, hds, rfl⟩
        obtain rfl : ds = [] := by simpa using hds.symm
        rfl
  | cons c cs ih =>
      rw [List.foldlM_cons]
      constructor
      · intro h
        cases hc : pushChar (u32 overflowChecks) (Nat.digits 256 n) c with
        | error e =>
            rw [hc] at h
            cases h
        | ok num' =>
            obtain ⟨d, hd, hsame, rfl⟩ := (pushChar_eq_ok overflowChecks n c num').mp hc
            rw [hc] at h
            obtain ⟨ds, hds, hrest, rfl⟩ := (ih _).mp h
            refine ⟨d :: ds, ?_, ?_, rfl⟩
            · intro x hx
              rcases List.mem_cons.mp hx with rfl | hx
              · exact hd
              · exact hds x hx
            · rw [List.map_cons, List.map_cons, List.map_cons, hsame, hrest]
      · rintro ⟨ds, hds, hsame, rfl⟩
        cases ds with
        | nil => simp at hsame
        | cons d ds =>
            simp only [List.map_cons, List.cons.injEq] at hsame
            have hc := (pushChar_eq_ok overflowChecks n c _).mpr
              ⟨d, hds d (by simp), hsame.1, rfl⟩
            rw [hc]
            exact (ih _).mpr ⟨ds, fun x hx => hds x (List.mem_cons_of_mem _ hx), hsame.2, rfl⟩

private theorem intoVec_eq_ok (s : String) (bs : List UInt8) :
    intoVec (u32 overflowChecks) s = .ok bs ↔
      ∃ ds : List Nat, (∀ d ∈ ds, d < 58) ∧
        s.toList.map Char.toUInt8 = (ds.map symbol).map Char.toUInt8 ∧
        bs = List.replicate (s.toList.takeWhile (· == '1')).length 0 ++
          (Nat.digits 256 (value 58 ds)).reverse.map UInt8.ofNat := by
  have hloop := foldlM_pushChar_eq_ok overflowChecks s.toList 0
  rw [Nat.digits_zero] at hloop
  unfold intoVec
  constructor
  · intro h
    cases hnum : s.toList.foldlM (pushChar (u32 overflowChecks)) [] with
    | error e =>
        rw [hnum] at h
        cases h
    | ok num =>
        obtain ⟨ds, hds, hsame, rfl⟩ := (hloop num).mp hnum
        rw [hnum] at h
        exact ⟨ds, hds, hsame, (Except.ok.inj h).symm⟩
  · rintro ⟨ds, hds, hsame, rfl⟩
    rw [(hloop _).mpr ⟨ds, hds, hsame, rfl⟩]
    rfl

private theorem leadingZeros_text {ds : List Nat} (h : ∀ d ∈ ds, d < 58) :
    ((text ds).toList.takeWhile (· == '1')).length = leadingZeros ds := by
  rw [text, String.toList_ofList, leadingZeros, List.takeWhile_map, List.length_map]
  induction ds with
  | nil => rfl
  | cons d ds ih =>
      have hd := symbol_eq_one d (h d (by simp))
      have hrest := ih fun x hx => h x (List.mem_cons_of_mem _ hx)
      by_cases hzero : d = 0
      · have hone : symbol 0 = '1' := by decide
        subst hzero
        simpa [hone] using hrest
      · have hone : ¬ symbol d = '1' := fun hsym => hzero (hd.mp hsym)
        simp [hzero, hone]

private theorem intoVec_text {ds : List Nat} (h : ∀ d ∈ ds, d < 58) :
    intoVec (u32 overflowChecks) (text ds) = .ok ((convert 58 256 ds).map UInt8.ofNat) := by
  refine (intoVec_eq_ok overflowChecks _ _).mpr ⟨ds, h, ?_, ?_⟩
  · rw [text, String.toList_ofList]
  · rw [leadingZeros_text h, convert, List.map_append, List.map_replicate]
    rfl

private theorem intoVec_text_convert (bs : List UInt8) :
    intoVec (u32 overflowChecks) (text (convert 256 58 (octets bs))) = .ok bs := by
  have hlt : ∀ d ∈ convert 256 58 (octets bs), d < 58 :=
    fun d hd => lt_of_mem_convert (by omega) hd
  rw [intoVec_text overflowChecks hlt, convert_convert 58 (by omega) (octets_lt bs),
    map_ofNat_octets]

private theorem intoString_intoVec {s : String} {bs : List UInt8} (hs : ∀ c ∈ s.toList, Ascii c)
    (h : intoVec (u32 overflowChecks) s = .ok bs) :
    intoString (u32 overflowChecks) bs = some s := by
  obtain ⟨ds, hds, hsame, -⟩ := (intoVec_eq_ok overflowChecks s bs).mp h
  have hsymbols := ascii_text hds
  rw [text, String.toList_ofList] at hsymbols
  obtain rfl : s = text ds := by
    rw [text, ← map_toUInt8_inj hs hsymbols hsame, String.ofList_toList]
  have hlt : ∀ d ∈ convert 58 256 ds, d < 256 := fun d hd => lt_of_mem_convert (by omega) hd
  have hbs := (intoVec_text overflowChecks hds).symm.trans h
  rw [intoString_eq, ← Except.ok.inj hbs, octets_map_ofNat hlt, convert_convert 256 (by omega) hds]

end Bs58

namespace PeerId

open Bs58

private theorem fromStr_eq_ok {overflowChecks : Bool} {debug : Char → String} {s : String}
    {p : PeerId} :
    fromStr (u32 overflowChecks) debug s = .ok p ↔
      intoVec (u32 overflowChecks) s = .ok p.bytes.toList := by
  unfold fromStr
  cases intoVec (u32 overflowChecks) s with
  | error e => cases e <;> simp
  | ok bs =>
      constructor
      · intro h
        simp only at h
        split at h
        · rw [← Except.ok.inj h]
          simp
        · cases h
      · intro h
        obtain rfl := Except.ok.inj h
        dsimp only
        rw [dif_pos p.bytes.length_toList]
        obtain ⟨⟨bytes, hlen⟩⟩ := p
        rfl

/-- Encoding and decoding back, of any bytes and so of any peer id. -/
theorem fromStr_display (overflowChecks : Bool) (debug : Char → String) :
    (∀ bs : List UInt8, ∃ s, intoString (u32 overflowChecks) bs = some s ∧
      intoVec (u32 overflowChecks) s = .ok bs) ∧
    ∀ p : PeerId, ∃ s, p.display (u32 overflowChecks) = some s ∧
      fromStr (u32 overflowChecks) debug s = .ok p := by
  have hbytes : ∀ bs : List UInt8, ∃ s, intoString (u32 overflowChecks) bs = some s ∧
      intoVec (u32 overflowChecks) s = .ok bs :=
    fun bs => ⟨_, intoString_eq overflowChecks bs, intoVec_text_convert overflowChecks bs⟩
  refine ⟨hbytes, fun p => ?_⟩
  obtain ⟨s, hs, hback⟩ := hbytes p.bytes.toList
  exact ⟨s, hs, fromStr_eq_ok.mpr hback⟩

/-- A peer id read from a text is written as that text just when the text is ASCII. -/
theorem display_fromStr_iff {overflowChecks : Bool} {debug : Char → String} {s : String}
    {p : PeerId} (h : fromStr (u32 overflowChecks) debug s = .ok p) :
    p.display (u32 overflowChecks) = some s ↔ ∀ c ∈ s.toList, Ascii c := by
  constructor
  · intro hs
    rw [display, intoString_eq] at hs
    rw [← Option.some.inj hs]
    exact ascii_text fun d hd => lt_of_mem_convert (by omega) hd
  · intro hs
    exact intoString_intoVec overflowChecks hs (fromStr_eq_ok.mp h)

def lastBit : PeerId := ⟨(Vector.replicate 31 0).push 1⟩

theorem display_fromStr_iff_lastBit :
    lastBit.display (u32 true) = some "11111111111111111111111111111112" ↔
      ∀ c ∈ "11111111111111111111111111111112".toList, Ascii c :=
  @display_fromStr_iff true Char.quote _ _ (by decide +kernel)

/-- The ligature at the end has the low byte of the digit two. -/
theorem ligature_accepted :
    fromStr (u32 true) Char.quote "1111111111111111111111111111111Ĳ" = .ok lastBit ∧
      fromStr (u32 true) Char.quote "11111111111111111111111111111112" = .ok lastBit ∧
      lastBit.display (u32 true) ≠ some "1111111111111111111111111111111Ĳ" := by
  decide +kernel

end PeerId

end IntelNav.Core
