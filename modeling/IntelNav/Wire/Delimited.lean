import IntelNav.Wire.Cbor
import IntelNav.Wire.Frame

/-! The messages of a chain can be read back from their CBOR bytes: every value in them tells by its
first bytes where it ends. -/

set_option autoImplicit false
set_option relaxedAutoImplicit false

namespace IntelNav.Wire.Cbor

open IntelNav.Core

variable {α β : Type}

/-- The bytes tell a value apart from the others, whatever comes after them. -/
def Delimited (P : α → Prop) (ser : α → List UInt8) : Prop :=
  ∀ ⦃a b xs ys⦄, P a → P b → ser a ++ xs = ser b ++ ys → a = b ∧ xs = ys

/-- What follows the major type in the first byte, and the number of bytes after it. -/
private def lead (n : Nat) : Nat :=
  if n < 24 then n else if n < 2 ^ 8 then 24 else if n < 2 ^ 16 then 25
  else if n < 2 ^ 32 then 26 else 27

private def width (n : Nat) : Nat :=
  if n < 24 then 0 else if n < 2 ^ 8 then 1 else if n < 2 ^ 16 then 2
  else if n < 2 ^ 32 then 4 else 8

private theorem head_eq (major n : Nat) :
    head major n = UInt8.ofNat (major * 32 + lead n) :: beBytes (width n) n := by
  simp only [head, lead, width]
  split_ifs <;> rfl

private theorem lead_lt (n : Nat) : lead n < 32 := by
  rw [lead]
  split_ifs <;> omega

private theorem width_of_lead {m n : Nat} (h : lead m = lead n) :
    width m = width n ∧ (m < 24 → m = n) := by
  simp only [lead, width] at h ⊢
  split_ifs at h ⊢ <;> omega

private theorem lt_of_width {n : Nat} (hn : n < 2 ^ 64) (h : ¬n < 24) : n < 256 ^ width n := by
  rw [width]
  split_ifs <;> omega

private theorem mod_of_beBytes {k m n : Nat} (h : beBytes k m = beBytes k n) :
    m % 256 ^ k = n % 256 ^ k := by
  induction k with
  | zero => rw [Nat.pow_zero, Nat.mod_one, Nat.mod_one]
  | succ k ih =>
      obtain ⟨hhead, htail⟩ := List.cons.inj h
      have hdigit := congrArg UInt8.toNat hhead
      rw [UInt8.toNat_ofNat', UInt8.toNat_ofNat'] at hdigit
      rw [Nat.mod_pow_succ, Nat.mod_pow_succ, ih htail]
      exact congrArg _ (congrArg _ hdigit)

private theorem delimited_head (major : Nat) : Delimited (· < 2 ^ 64) (head major) := by
  intro m n xs ys hm hn h
  rw [head_eq, head_eq] at h
  obtain ⟨hfirst, htail⟩ := List.cons.inj h
  have hlead : lead m = lead n := by
    have hbyte := congrArg UInt8.toNat hfirst
    have := lead_lt m
    have := lead_lt n
    rw [UInt8.toNat_ofNat', UInt8.toNat_ofNat'] at hbyte
    omega
  obtain ⟨hwidth, hsmall⟩ := width_of_lead hlead
  obtain ⟨hbytes, hrest⟩ := List.append_inj htail (by rw [length_beBytes, length_beBytes, hwidth])
  refine ⟨?_, hrest⟩
  by_cases hm' : m < 24
  · exact hsmall hm'
  have hn' : ¬n < 24 := fun hn' => by
    have := (width_of_lead hlead.symm).2 hn'
    omega
  rw [hwidth] at hbytes
  have hmod := mod_of_beBytes hbytes
  rwa [Nat.mod_eq_of_lt (hwidth ▸ lt_of_width hm hm'), Nat.mod_eq_of_lt (lt_of_width hn hn')]
    at hmod

private theorem delimited_uint : Delimited (· < 2 ^ 64) uint := delimited_head 0

private theorem delimited_text : Delimited (fun s => s.utf8ByteSize < 2 ^ 64) text := by
  intro s t xs ys hs ht h
  rw [text, text, List.append_assoc, List.append_assoc] at h
  obtain ⟨hsize, hrest⟩ := delimited_head 3 hs ht h
  obtain ⟨hbytes, htail⟩ := List.append_inj hrest (by
    rw [Array.length_toList, Array.length_toList]
    exact hsize)
  exact ⟨String.toByteArray_inj.mp (ByteArray.ext (Array.toList_inj.mp hbytes)), htail⟩

private theorem delimited_flatten {P : α → Prop} {ser : α → List UInt8} (hser : Delimited P ser)
    {as bs : List α} (hlen : as.length = bs.length) (has : ∀ a ∈ as, P a) (hbs : ∀ b ∈ bs, P b)
    {xs ys : List UInt8} (h : (as.map ser).flatten ++ xs = (bs.map ser).flatten ++ ys) :
    as = bs ∧ xs = ys := by
  induction as generalizing bs with
  | nil =>
      obtain rfl := List.length_eq_zero_iff.mp hlen.symm
      exact ⟨rfl, h⟩
  | cons a as ih =>
      cases bs with
      | nil => cases hlen
      | cons b bs =>
          simp only [List.map_cons, List.flatten_cons, List.append_assoc] at h
          obtain ⟨rfl, htail⟩ := hser (has a List.mem_cons_self) (hbs b List.mem_cons_self) h
          obtain ⟨rfl, hrest⟩ := ih (Nat.succ.inj hlen)
            (fun a ha => has a (List.mem_cons_of_mem _ ha))
            (fun b hb => hbs b (List.mem_cons_of_mem _ hb)) htail
          exact ⟨rfl, hrest⟩

private theorem delimited_seq {P : α → Prop} {ser : α → List UInt8} (hser : Delimited P ser) :
    Delimited (fun as : List α => as.length < 2 ^ 64 ∧ ∀ a ∈ as, P a) fun as : List α =>
      seq (as.map ser) := by
  rintro as bs xs ys ⟨hlen, has⟩ ⟨hlen', hbs⟩ h
  simp only [seq, List.append_assoc, List.length_map] at h
  obtain ⟨hsame, htail⟩ := delimited_head 4 hlen hlen' h
  exact delimited_flatten hser hsame has hbs htail

theorem Delimited.comp {P : β → Prop} {ser : β → List UInt8} (hser : Delimited P ser) {f : α → β}
    (hf : Function.Injective f) : Delimited (fun a => P (f a)) fun a => ser (f a) := by
  intro a b xs ys ha hb h
  obtain ⟨heq, hrest⟩ := hser ha hb h
  exact ⟨hf heq, hrest⟩

theorem Delimited.imp {P Q : α → Prop} {ser : α → List UInt8} (hser : Delimited P ser)
    (h : ∀ a, Q a → P a) : Delimited Q ser := fun a b _ _ ha hb => hser (h a ha) (h b hb)

private theorem delimited_byte : Delimited (fun _ => True) fun b : UInt8 => uint b.toNat :=
  (delimited_uint.comp fun _ _ h => UInt8.toNat_inj.mp h).imp fun b _ => by
    have := b.toNat_lt
    omega

private theorem delimited_u16 : Delimited (fun _ => True) fun n : UInt16 => uint n.toNat :=
  (delimited_uint.comp fun _ _ h => UInt16.toNat_inj.mp h).imp fun n _ => by
    have := n.toNat_lt
    omega

private theorem delimited_u32 : Delimited (fun _ => True) fun n : UInt32 => uint n.toNat :=
  (delimited_uint.comp fun _ _ h => UInt32.toNat_inj.mp h).imp fun n _ => by
    have := n.toNat_lt
    omega

private theorem delimited_bytes : Delimited (fun bs => bs.length < 2 ^ 64) bytes :=
  (delimited_seq delimited_byte).imp fun _ h => ⟨h, fun _ _ => trivial⟩

private theorem hexDigit_inj {m n : Nat} (hm : m < 16) (hn : n < 16) (h : hexDigit m = hexDigit n) :
    m = n := by
  have hall : ∀ m < 16, ∀ n < 16, hexDigit m = hexDigit n → m = n := by decide
  exact hall m hm n hn h

private theorem hexDigits_inj {as bs : List UInt8}
    (h : (as.flatMap fun b => [hexDigit (b.toNat / 16), hexDigit (b.toNat % 16)]) =
      bs.flatMap fun b => [hexDigit (b.toNat / 16), hexDigit (b.toNat % 16)]) : as = bs := by
  induction as generalizing bs with
  | nil =>
      cases bs with
      | nil => rfl
      | cons b bs => cases h
  | cons a as ih =>
      cases bs with
      | nil => cases h
      | cons b bs =>
          simp only [List.flatMap_cons, List.cons_append, List.nil_append, List.cons.injEq] at h
          obtain ⟨hhigh, hlow, hrest⟩ := h
          have ha := a.toNat_lt
          have hb := b.toNat_lt
          have hhigh := hexDigit_inj (by omega) (by omega) hhigh
          have hlow := hexDigit_inj (by omega) (by omega) hlow
          rw [UInt8.toNat_inj.mp (show a.toNat = b.toNat by omega), ih hrest]

private theorem delimited_sessionId : Delimited (fun _ => True) sessionId := by
  intro s t xs ys _ _ h
  have hsize : ∀ s : SessionId, (String.ofList (s.bytes.toList.flatMap fun b =>
      [hexDigit (b.toNat / 16), hexDigit (b.toNat % 16)])).utf8ByteSize < 2 ^ 64 := fun s => by
    rw [utf8ByteSize_hex, Vector.length_toList]
    decide
  obtain ⟨heq, hrest⟩ := delimited_text (hsize s) (hsize t) h
  have hbytes := hexDigits_inj (String.ofList_injective heq)
  obtain ⟨s⟩ := s
  obtain ⟨t⟩ := t
  exact ⟨congrArg SessionId.mk (Vector.toList_inj.mp hbytes), hrest⟩

private def phaseName : Phase → String
  | .prefill => "prefill"
  | .decode => "decode"

private def dtypeName : Dtype → String
  | .fp16 => "fp16"
  | .bf16 => "bf16"
  | .int8 => "int8"

private theorem delimited_phase : Delimited (fun _ => True) phase := by
  have heq : phase = fun p => text (phaseName p) := by
    funext p
    cases p <;> rfl
  rw [heq]
  refine (delimited_text.comp (f := phaseName) fun p q h => ?_).imp fun p _ => ?_
  · cases p <;> cases q <;> first | rfl | exact absurd h (by decide)
  · cases p <;> decide

private theorem delimited_dtype : Delimited (fun _ => True) dtype := by
  have heq : dtype = fun d => text (dtypeName d) := by
    funext d
    cases d <;> rfl
  rw [heq]
  refine (delimited_text.comp (f := dtypeName) fun d e h => ?_).imp fun d _ => ?_
  · cases d <;> cases e <;> first | rfl | exact absurd h (by decide)
  · cases d <;> decide

private theorem delimited_quant : Delimited (fun _ => True) quant := by
  refine (delimited_text.comp (f := Quant.asStr) fun p q h => ?_).imp fun p _ => ?_
  · cases p <;> cases q <;> first | rfl | exact absurd h (by decide)
  · cases p <;> decide

theorem Delimited.after {P : α → Prop} {ser : α → List UInt8} (hser : Delimited P ser)
    {key xs ys : List UInt8} {a b : α} (ha : P a) (hb : P b)
    (h : key ++ (ser a ++ xs) = key ++ (ser b ++ ys)) : a = b ∧ xs = ys :=
  hser ha hb (List.append_cancel_left h)

private theorem delimited_shape : Delimited (fun _ => True) shape := by
  rintro ⟨b, s, n⟩ ⟨b', s', n'⟩ xs ys _ _ h
  simp only [shape, seq, List.flatten_cons, List.flatten_nil, List.append_assoc, List.append_nil]
    at h
  obtain ⟨rfl, h₁⟩ := delimited_u32.after trivial trivial h
  obtain ⟨rfl, h₂⟩ := delimited_u32 trivial trivial h₁
  obtain ⟨rfl, h₃⟩ := delimited_u32 trivial trivial h₂
  exact ⟨rfl, h₃⟩

private theorem delimited_layerRange : Delimited (fun _ => True) layerRange := by
  rintro ⟨s, e⟩ ⟨s', e'⟩ xs ys _ _ h
  simp only [layerRange, fields, List.map_cons, List.map_nil, List.flatten_cons, List.flatten_nil,
    List.append_assoc, List.nil_append] at h
  obtain ⟨rfl, h₁⟩ := delimited_u16.after trivial trivial (List.append_cancel_left h)
  obtain ⟨rfl, h₂⟩ := delimited_u16.after trivial trivial h₁
  exact ⟨rfl, h₂⟩

private theorem head_ne_null (major n : Nat) (hmajor : major < 7) (xs ys : List UInt8) :
    head major n ++ xs ≠ null ++ ys := by
  intro h
  rw [head_eq] at h
  have hbyte := congrArg UInt8.toNat (List.cons.inj h).1
  have hlead := lead_lt n
  rw [UInt8.toNat_ofNat_of_lt' (show _ < 256 by omega)] at hbyte
  have hnull : (0xf6 : UInt8).toNat = 246 := rfl
  omega

private theorem delimited_option {P : α → Prop} {ser : α → List UInt8} (hser : Delimited P ser)
    (hnull : ∀ a xs ys, ser a ++ xs ≠ null ++ ys) :
    Delimited (fun o => ∀ a, o = some a → P a) (option ser) := by
  rintro (_ | a) (_ | b) xs ys ha hb h
  · exact ⟨rfl, List.append_cancel_left h⟩
  · exact absurd h.symm (hnull b ys xs)
  · exact absurd h (hnull a xs ys)
  · obtain ⟨rfl, hrest⟩ := hser (ha a rfl) (hb b rfl) h
    exact ⟨rfl, hrest⟩

private theorem delimited_kvDelta :
    Delimited (fun o => ∀ d : List UInt8, o = some d → d.length < 2 ^ 64) (option bytes) :=
  delimited_option delimited_bytes fun d xs ys h => by
    rw [bytes, seq, List.append_assoc] at h
    exact head_ne_null 4 _ (by decide) _ _ h

private theorem fields_append (kvs : List (String × List UInt8)) (xs : List UInt8) :
    fields kvs ++ xs =
      head 5 kvs.length ++ ((kvs.map fun kv => text kv.1 ++ kv.2).flatten ++ xs) := by
  rw [fields, List.append_assoc]

private theorem length_of_fields {kvs kvs' : List (String × List UInt8)} {xs ys : List UInt8}
    (hlen : kvs.length < 2 ^ 64) (hlen' : kvs'.length < 2 ^ 64)
    (h : fields kvs ++ xs = fields kvs' ++ ys) : kvs.length = kvs'.length := by
  rw [fields_append, fields_append] at h
  exact (delimited_head 5 hlen hlen' h).1

/-- The messages of a chain, their lengths and counters such as a header can hold. -/
def Chained : Msg → Prop
  | .hello _ _ quants => quants.length < 2 ^ 64
  | .sessionInit _ _ modelCid _ _ => modelCid.utf8ByteSize < 2 ^ 64
  | .sessionAck _ _ => True
  | .forwardHidden f => f.seq < 2 ^ 64 ∧ f.payload.length < 2 ^ 64 ∧
      ∀ d, f.kvDelta = some d → d.length < 2 ^ 64
  | _ => False

private theorem delimited_forward : Delimited (fun f => Chained (.forwardHidden f)) forward := by
  rintro ⟨s, n, p, d, sh, pay, kv, keep⟩ ⟨s', n', p', d', sh', pay', kv', keep'⟩ xs ys
    ⟨hn, hpay, hkv⟩ ⟨hn', hpay', hkv'⟩ h
  have hcount := length_of_fields (by cases keep <;> simp) (by cases keep' <;> simp) h
  rw [forward, forward, fields_append, fields_append, hcount] at h
  have h₀ := List.append_cancel_left h
  simp only [List.cons_append, List.nil_append, List.map_cons, List.flatten_cons,
    List.append_assoc] at h₀
  have h₁ := List.append_cancel_left (List.append_cancel_left h₀)
  obtain ⟨rfl, h₂⟩ := delimited_sessionId.after trivial trivial h₁
  obtain ⟨rfl, h₃⟩ := delimited_uint.after hn hn' h₂
  obtain ⟨rfl, h₄⟩ := delimited_phase.after trivial trivial h₃
  obtain ⟨rfl, h₅⟩ := delimited_dtype.after trivial trivial h₄
  obtain ⟨rfl, h₆⟩ := delimited_shape.after trivial trivial h₅
  obtain ⟨rfl, h₇⟩ := delimited_bytes.after hpay hpay' h₆
  obtain ⟨rfl, h₈⟩ := delimited_kvDelta.after hkv hkv' h₇
  cases keep with
  | none =>
      cases keep' with
      | none => exact ⟨rfl, h₈⟩
      | some k' => simp at hcount
  | some k =>
      cases keep' with
      | none => simp at hcount
      | some k' =>
          simp only [List.map_cons, List.map_nil, List.flatten_cons, List.flatten_nil,
            List.append_nil, List.append_assoc] at h₈
          obtain ⟨rfl, h₉⟩ := delimited_u32.after trivial trivial h₈
          exact ⟨rfl, h₉⟩

private def fieldCount : Msg → Nat
  | .hello _ _ _ => 4
  | .sessionInit _ _ _ _ _ => 6
  | .sessionAck _ _ => 3
  | .forwardHidden f => if f.kvTruncateTo.isSome then 9 else 8
  | _ => 0

private theorem fields_of_msg (f32 : UInt32 → List UInt8) {m : Msg} (hm : Chained m) :
    ∃ kvs, msg f32 m = fields kvs ∧ kvs.length = fieldCount m ∧ kvs.length < 2 ^ 64 := by
  cases m with
  | hello p v qs => exact ⟨_, rfl, rfl, by simp⟩
  | sessionInit s pub cid r maxSeq => exact ⟨_, rfl, rfl, by simp⟩
  | sessionAck s pub => exact ⟨_, rfl, rfl, by simp⟩
  | forwardHidden f =>
      refine ⟨_, rfl, ?_⟩
      cases hkeep : f.kvTruncateTo <;> simp [fieldCount, hkeep]
  | _ => cases hm

private theorem fieldCount_eq {f32 : UInt32 → List UInt8} {a b : Msg} (ha : Chained a)
    (hb : Chained b) {xs ys : List UInt8} (h : msg f32 a ++ xs = msg f32 b ++ ys) :
    fieldCount a = fieldCount b := by
  obtain ⟨kvs, heq, hlen, hlt⟩ := fields_of_msg f32 ha
  obtain ⟨kvs', heq', hlen', hlt'⟩ := fields_of_msg f32 hb
  rw [heq, heq'] at h
  rw [← hlen, ← hlen', length_of_fields hlt hlt' h]

private theorem delimited_peerId : Delimited (fun _ => True) peerId := by
  rintro ⟨p⟩ ⟨q⟩ xs ys - - h
  obtain ⟨heq, hrest⟩ := delimited_sessionId (a := ⟨p⟩) (b := ⟨q⟩) trivial trivial h
  exact ⟨congrArg PeerId.mk (SessionId.mk.inj heq), hrest⟩

private theorem delimited_quants :
    Delimited (fun qs : List Quant => qs.length < 2 ^ 64) fun qs => seq (qs.map quant) :=
  (delimited_seq delimited_quant).imp fun _ h => ⟨h, fun _ _ => trivial⟩

private theorem delimited_key : Delimited (fun _ => True) fun key : Vector UInt8 32 =>
    bytes key.toList :=
  (delimited_bytes.comp fun _ _ h => Vector.toList_inj.mp h).imp fun key _ => by simp

private theorem delimited_msg (f32 : UInt32 → List UInt8) : Delimited Chained (msg f32) := by
  intro a b xs ys ha hb h
  have hcount := fieldCount_eq ha hb h
  cases a with
  | forwardHidden f =>
      cases b with
      | forwardHidden f' =>
          obtain ⟨rfl, hrest⟩ := delimited_forward ha hb h
          exact ⟨rfl, hrest⟩
      | _ => grind [fieldCount, Chained]
  | hello p v qs =>
      cases b with
      | hello p' v' qs' =>
          simp only [msg, fields_append, List.map_cons, List.map_nil, List.flatten_cons,
            List.flatten_nil, List.append_nil, List.append_assoc] at h
          have h₀ := List.append_cancel_left (List.append_cancel_left (List.append_cancel_left h))
          obtain ⟨rfl, h₁⟩ := delimited_peerId.after trivial trivial h₀
          obtain ⟨rfl, h₂⟩ := delimited_u32.after trivial trivial h₁
          obtain ⟨rfl, h₃⟩ := delimited_quants.after ha hb h₂
          exact ⟨rfl, h₃⟩
      | _ => grind [fieldCount, Chained]
  | sessionInit s pub cid r maxSeq =>
      cases b with
      | sessionInit s' pub' cid' r' maxSeq' =>
          simp only [msg, fields_append, List.map_cons, List.map_nil, List.flatten_cons,
            List.flatten_nil, List.append_nil, List.append_assoc] at h
          have h₀ := List.append_cancel_left (List.append_cancel_left (List.append_cancel_left h))
          obtain ⟨rfl, h₁⟩ := delimited_sessionId.after trivial trivial h₀
          obtain ⟨rfl, h₂⟩ := delimited_key.after trivial trivial h₁
          obtain ⟨rfl, h₃⟩ := delimited_text.after ha hb h₂
          obtain ⟨rfl, h₄⟩ := delimited_layerRange.after trivial trivial h₃
          obtain ⟨rfl, h₅⟩ := delimited_u32.after trivial trivial h₄
          exact ⟨rfl, h₅⟩
      | _ => grind [fieldCount, Chained]
  | sessionAck s pub =>
      cases b with
      | sessionAck s' pub' =>
          simp only [msg, fields_append, List.map_cons, List.map_nil, List.flatten_cons,
            List.flatten_nil, List.append_nil, List.append_assoc] at h
          have h₀ := List.append_cancel_left (List.append_cancel_left (List.append_cancel_left h))
          obtain ⟨rfl, h₁⟩ := delimited_sessionId.after trivial trivial h₀
          obtain ⟨rfl, h₂⟩ := delimited_key.after trivial trivial h₁
          exact ⟨rfl, h₂⟩
      | _ => grind [fieldCount, Chained]
  | _ => cases ha

open Classical in
/-- The messages of a chain as these bytes; what is read is the message the bytes belong to. -/
noncomputable def chainCodec (f32 : UInt32 → List UInt8) : Codec where
  encode m := if Chained m then .ok (msg f32 m) else .error "unsupported"
  decode b :=
    if h : ∃ m, Chained m ∧ msg f32 m = b then .ok h.choose else .error "unsupported"

theorem chainCodec_roundTrips (f32 : UInt32 → List UInt8) : (chainCodec f32).RoundTrips := by
  intro m b henc
  simp only [chainCodec] at henc ⊢
  split_ifs at henc with hm
  obtain rfl := Except.ok.inj henc
  have hex : ∃ m', Chained m' ∧ msg f32 m' = msg f32 m := ⟨m, hm, rfl⟩
  rw [dif_pos hex]
  obtain ⟨hchained, heq⟩ := hex.choose_spec
  have hsame : msg f32 hex.choose ++ [] = msg f32 m ++ [] := by rw [heq]
  rw [(delimited_msg f32 hchained hm hsame).1]

theorem chainCodec_fits {f32 : UInt32 → List UInt8} {m : Msg} (hm : Chained m)
    (hlen : (msg f32 m).length ≤ maxFrameBytes) : (chainCodec f32).Fits m :=
  ⟨_, if_pos hm, hlen⟩

end IntelNav.Wire.Cbor
