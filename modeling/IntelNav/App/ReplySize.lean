import IntelNav.App.ForwardServer
import IntelNav.Core.Floats
import IntelNav.Ggml.Payload
import IntelNav.Wire.Cbor

/-! The size of the reply to a forward.

A payload byte takes one byte on the wire below 24 and two otherwise, so the reply can be twice as
long as the request it answers. -/

set_option autoImplicit false
set_option relaxedAutoImplicit false

namespace IntelNav.App

open IntelNav.Core IntelNav.Ggml IntelNav.Runtime IntelNav.Wire

variable {F K : Type}

/-- The encoder is the CBOR serializer; the bytes of a float are left open. -/
def IsCbor (cd : Codec) : Prop := ∃ f32, ∀ m, cd.encode m = .ok (Cbor.msg f32 m)

def wide (b : UInt8) : Bool := 24 ≤ b.toNat

/-- What the sizes depend on in the bytes of floats: the pattern of 1.0, and values all of whose
bytes are wide, as a half float and as a quantized row of any length. -/
structure IeeeBytes (F : Type) [F32 F] : Prop where
  zero_lt_zero : F32.lt (F32.ofInt 0 : F) (F32.ofInt 0) = false
  one : F32.toBits (F32.ofInt 1 : F) = 0x3f800000
  half : ∃ x : F, ∀ b ∈ le16 (F32.toF16 x), wide b = true
  row : ∀ h, 0 < h → ∃ row : List F, row.length = h ∧
    (∀ b ∈ le32 (F32.toBits (int8Scale row)), wide b = true) ∧
    ∀ x ∈ row, wide (int8Quant (F32.div (F32.ofInt 1) (int8Scale row)) x) = true

def worstWide (dtype : Dtype) (shape : Shape3) : Nat :=
  match dtype with
  | .int8 =>
      if shape.hidden.toNat = 0 then 2 * (shape.batch.toNat * shape.seq.toNat)
      else payloadLen dtype shape
  | .fp16 | .bf16 => payloadLen dtype shape

def worstReplyLen (f : Forward) : Nat :=
  151 + Cbor.headLen f.seq + Cbor.headLen f.shape.batch.toNat + Cbor.headLen f.shape.seq.toNat +
    Cbor.headLen f.shape.hidden.toNat + Cbor.headLen (payloadLen f.dtype f.shape) +
    payloadLen f.dtype f.shape + worstWide f.dtype f.shape

section Payloads

variable [F32 F]

private theorem countP_wide_flatten_replicate (bs : List UInt8) (n : Nat) :
    (List.replicate n bs).flatten.countP wide = n * bs.countP wide := by
  induction n with
  | zero => simp
  | succ n ih =>
      rw [List.replicate_succ, List.flatten_cons, List.countP_append, ih, Nat.succ_mul,
        Nat.add_comm]

private theorem countP_wide_encodeInt8Rows (row : List F) (n : Nat) :
    (encodeInt8Rows (List.replicate n row).flatten n row.length).countP wide =
      n * ((le32 (F32.toBits (int8Scale row))).countP wide +
        (row.map (int8Quant (F32.div (F32.ofInt 1) (int8Scale row)))).countP wide) := by
  have hrow : ∀ r ∈ List.replicate n row, r.length = row.length := fun r hr => by
    rw [List.eq_of_mem_replicate hr]
  have hbytes := encodeInt8Rows_eq (List.replicate n row) row.length hrow
  rw [List.length_replicate] at hbytes
  rw [hbytes, List.countP_append, List.flatMap_def, List.map_map, List.map_replicate,
    List.map_replicate, countP_wide_flatten_replicate, countP_wide_flatten_replicate, Nat.mul_add]
  rfl

private theorem int8Scale_nil (hF : IeeeBytes F) : int8Scale ([] : List F) = F32.ofInt 1 := by
  simp [int8Scale, hF.zero_lt_zero]

private theorem countP_wide_empty_rows (hF : IeeeBytes F) (n : Nat) :
    (encodeInt8Rows ([] : List F) n 0).countP wide = 2 * n := by
  have hrows := countP_wide_encodeInt8Rows ([] : List F) n
  have hone : (le32 (0x3f800000 : UInt32)).countP wide = 2 := by decide
  rw [int8Scale_nil hF, hF.one, hone] at hrows
  simpa [Nat.mul_comm] using hrows

private theorem wide_le_worst (hF : IeeeBytes F) {xs : List F} {shape : Shape3} {dtype : Dtype}
    {p : HiddenPayload} (henc : encodeHiddenWith xs shape dtype = .ok p) :
    p.bytes.countP wide ≤ worstWide dtype shape := by
  obtain ⟨-, -, hlen⟩ := length_encodeHiddenWith henc
  have hle : p.bytes.countP wide ≤ payloadLen dtype shape := hlen ▸ List.countP_le_length
  obtain ⟨-, hxs, ⟨rfl, -⟩ | ⟨rfl, hp⟩⟩ := encodeHiddenWith_eq_ok.mp henc
  · exact hle
  · rw [worstWide]
    split_ifs with hzero
    · rw [hzero, Nat.mul_zero] at hxs
      obtain rfl := List.eq_nil_of_length_eq_zero hxs
      rw [hp, hzero, countP_wide_empty_rows hF]
    · exact hle

/-- Some output takes the worst case of its shape. -/
private theorem worst_attained (hF : IeeeBytes F) (shape : Shape3) (dtype : Dtype)
    (hd : dtype ≠ .bf16)
    (hn : shape.batch.toNat * shape.seq.toNat * shape.hidden.toNat < usizeMod) :
    ∃ (xs : List F) (p : HiddenPayload), encodeHiddenWith xs shape dtype = .ok p ∧
      p.bytes.countP wide = worstWide dtype shape := by
  cases dtype with
  | bf16 => exact absurd rfl hd
  | fp16 =>
      obtain ⟨x, hx⟩ := hF.half
      let n := shape.batch.toNat * shape.seq.toNat * shape.hidden.toNat
      refine ⟨List.replicate n x, _, encodeHiddenWith_eq_ok.mpr
        ⟨hn, List.length_replicate, .inl ⟨rfl, rfl⟩⟩, ?_⟩
      have hall : ∀ b ∈ (List.replicate n x).flatMap (fun x => le16 (F32.toF16 x)),
          wide b = true := fun b hb => by
        obtain ⟨y, hy, hb⟩ := List.mem_flatMap.mp hb
        rw [List.eq_of_mem_replicate hy] at hb
        exact hx b hb
      rw [List.countP_eq_length.mpr hall, length_flatMap_const fun x => length_le16 _,
        List.length_replicate]
      rfl
  | int8 =>
      let rows := shape.batch.toNat * shape.seq.toNat
      by_cases hzero : shape.hidden.toNat = 0
      · refine ⟨[], _, encodeHiddenWith_eq_ok.mpr ⟨hn, ?_, .inr ⟨rfl, rfl⟩⟩, ?_⟩
        · rw [hzero, Nat.mul_zero, List.length_nil]
        · rw [hzero, countP_wide_empty_rows hF, worstWide, if_pos hzero]
      · obtain ⟨row, hlen, hscale, hquant⟩ := hF.row shape.hidden.toNat (by omega)
        refine ⟨(List.replicate rows row).flatten, _, encodeHiddenWith_eq_ok.mpr
          ⟨hn, ?_, .inr ⟨rfl, rfl⟩⟩, ?_⟩
        · rw [flatten_length_of_rows (h := row.length)
            (fun r hr => by rw [List.eq_of_mem_replicate hr]), List.length_replicate, hlen]
        · have hq : ∀ b ∈ row.map (int8Quant (F32.div (F32.ofInt 1) (int8Scale row))),
              wide b = true := fun b hb => by
            obtain ⟨x, hx, rfl⟩ := List.mem_map.mp hb
            exact hquant x hx
          rw [← hlen, countP_wide_encodeInt8Rows, List.countP_eq_length.mpr hscale,
            List.countP_eq_length.mpr hq, length_le32, List.length_map, worstWide,
            if_neg hzero, payloadLen, Nat.mul_add, hlen, Nat.mul_comm _ 4]

end Payloads

section Replies

variable [F32 F]

/-- The forward `f` finds its session and its slice, and the layers give `out`. -/
def RunsTo (s : Server F K) (c : Connection) (f : Forward) (out : Hidden F) : Prop :=
  ∃ i slice key, c.sessionId = some f.sessionId ∧ ¬ (f.seq ≤ c.lastSeq ∧ c.lastSeq > 0) ∧
    c.loaded = some i ∧ s.slices[i]? = some slice ∧ c.activeSlice = some key ∧
    (forwardSlice slice c.indexPos key.2.1.toNat key.2.2.toNat f).1 = .ok out

/-- Whatever a slice makes of `f` in the shape of `f`, the reply is not refused for its size. -/
def Answered (F : Type) [F32 F] (cd : Codec) (f : Forward) : Prop :=
  ∀ (K : Type) (s : Server F K) (c : Connection) (out : Hidden F), RunsTo s c f out →
    out.shape = [f.shape.batch.toNat, f.shape.seq.toNat, f.shape.hidden.toNat] →
    ∀ len, (handleMessage cd s c (.forwardHidden f)).1.2 ≠
      .failed (.write (.frameTooLarge len maxFrameBytes))

private theorem handleMessage_runsTo (cd : Codec) {s : Server F K} {c : Connection} {f : Forward}
    {out : Hidden F} (hrun : RunsTo s c f out) :
    (handleMessage cd s c (.forwardHidden f)).1 =
      match forwardReply f out with
      | .error e => ([], .failed e)
      | .ok reply => writeFrame cd (.forwardHidden reply) .next := by
  obtain ⟨i, slice, ⟨cid, start, stop⟩, hsid, hseq, hload, hslice, hkey, hout⟩ := hrun
  have hbind : (c.loaded.bind fun i => (s.slices[i]?).map fun slice => (i, slice)) =
      some (i, slice) := by
    simp [hload, hslice]
  simp only [handleMessage, hsid, ne_eq, not_true_eq_false, if_false, if_neg hseq, hbind, hkey,
    hout, Except.bind]
  cases forwardReply f out <;> rfl

private theorem forwardReply_of_shape {f : Forward} {out : Hidden F}
    (hshape : out.shape = [f.shape.batch.toNat, f.shape.seq.toNat, f.shape.hidden.toNat]) :
    forwardReply f out =
      match encodeHiddenWith out.data f.shape f.dtype with
      | .error e => .error (.hidden e)
      | .ok p => .ok
          { sessionId := f.sessionId, seq := f.seq, phase := .decode, dtype := p.dtype,
            shape := p.shape, payload := p.bytes, kvDelta := none, kvTruncateTo := none } := by
  have hread : (⟨UInt32.ofNat f.shape.batch.toNat, UInt32.ofNat f.shape.seq.toNat,
      UInt32.ofNat f.shape.hidden.toNat⟩ : Shape3) = f.shape := by
    simp only [UInt32.ofNat_toNat]
  cases hp : encodeHiddenWith out.data f.shape f.dtype with
  | error e => simp only [forwardReply, hshape, hread, hp]
  | ok p => simp only [forwardReply, hshape, hread, hp]

private theorem writeFrame_tooLarge {cd : Codec} {m : Msg} {b : List UInt8}
    (henc : cd.encode m = .ok b) :
    (∃ len, (writeFrame cd m .next).2 = .failed (.write (.frameTooLarge len maxFrameBytes))) ↔
      maxFrameBytes < b.length := by
  by_cases hlen : maxFrameBytes < b.length
  · simp [writeFrame, encodeFrame_oversized henc hlen, hlen]
  · simp [writeFrame, encodeFrame_of_fits henc (by omega), hlen]

private theorem length_reply (f32 : UInt32 → List UInt8) {f : Forward}
    {p : HiddenPayload} {xs : List F} (henc : encodeHiddenWith xs f.shape f.dtype = .ok p) :
    (Cbor.msg f32 (.forwardHidden
        { sessionId := f.sessionId, seq := f.seq, phase := .decode, dtype := p.dtype,
          shape := p.shape, payload := p.bytes, kvDelta := none, kvTruncateTo := none })).length +
      worstWide f.dtype f.shape = worstReplyLen f + p.bytes.countP wide := by
  obtain ⟨-, hshape, hlen⟩ := length_encodeHiddenWith henc
  rw [Cbor.msg, Cbor.length_forward_reply _ rfl rfl rfl, Cbor.length_bytes, worstReplyLen]
  dsimp only
  rw [hshape, hlen]
  have hwide : p.bytes.countP (fun b => decide (24 ≤ b.toNat)) = p.bytes.countP wide := rfl
  omega

/-- A server whose only slice answers every forward with `out`. -/
def Server.answering (out : Hidden F) : Server F Unit where
  host := .new "" 0
  files :=
    { disk := ∅, fileExists := fun _ => false, stitchSubset := fun _ _ _ _ => .error "no file"
      load := fun _ => .error "no file" }
  cache := ∅
  slices :=
    [{ handle :=
        { blockCount := 1, resetCache := id, forward := fun _ _ k => (.ok out, k)
          embed := fun _ k => (.ok out, k), forwardRange := fun _ _ _ _ k => (.ok out, k)
          head := fun x k => (.ok x, k), headAll := fun x k => (.ok x, k)
          truncateKvTo := fun _ k => (.ok (), k) }
       kv := (), localOffset := 0 }]

private def Connection.admitted (sid : SessionId) : Connection :=
  { Connection.new with sessionId := some sid, activeSlice := some ("", 0, 1), loaded := some 0 }

private theorem answering_runsTo {f : Forward} {data : List F} (out : Hidden F)
    (hdec : decodeHidden ⟨f.dtype, f.shape, f.payload⟩ = .ok (f.shape, data)) :
    RunsTo (Server.answering out) (Connection.admitted f.sessionId) f out := by
  obtain ⟨-, hlen⟩ := length_decodeHidden hdec
  have hnew : Hidden.new data [f.shape.batch.toNat, f.shape.seq.toNat, f.shape.hidden.toNat] =
      .ok ⟨data, [f.shape.batch.toNat, f.shape.seq.toNat, f.shape.hidden.toNat]⟩ := by
    simp [Hidden.new, hlen, Nat.mul_assoc]
  refine ⟨0, _, ("", 0, 1), rfl, by simp [Connection.admitted, Connection.new], rfl, rfl, rfl, ?_⟩
  cases hkeep : f.kvTruncateTo <;> simp only [forwardSlice, hkeep, hdec, hnew]

private theorem answered_of_fits (hF : IeeeBytes F) {cd : Codec} (hcd : IsCbor cd) {f : Forward}
    (hfits : worstReplyLen f ≤ maxFrameBytes) : Answered F cd f := by
  intro K s c out hrun hshape len hwrite
  obtain ⟨f32, hcbor⟩ := hcd
  rw [handleMessage_runsTo cd hrun, forwardReply_of_shape hshape] at hwrite
  cases henc : encodeHiddenWith out.data f.shape f.dtype with
  | error e =>
      rw [henc] at hwrite
      cases hwrite
  | ok p =>
      rw [henc] at hwrite
      have hbig := (writeFrame_tooLarge (hcbor _)).mp ⟨len, hwrite⟩
      have hlen := length_reply f32 henc
      have hwide := wide_le_worst hF henc
      omega

private theorem not_answered_of_exceeds (hF : IeeeBytes F) {cd : Codec} (hcd : IsCbor cd)
    {f : Forward}
    {data : List F} (hdec : decodeHidden ⟨f.dtype, f.shape, f.payload⟩ = .ok (f.shape, data))
    (hbig : maxFrameBytes < worstReplyLen f) : ¬ Answered F cd f := by
  intro hanswered
  obtain ⟨f32, hcbor⟩ := hcd
  obtain ⟨-, halloc, hdtype⟩ := decodeHidden_eq_ok.mp hdec
  have hd : f.dtype ≠ .bf16 := by
    rcases hdtype with ⟨h, -⟩ | ⟨h, -⟩ <;> intro hbf <;> rw [hbf] at h <;> cases h
  obtain ⟨xs, p, henc, hwide⟩ := worst_attained hF f.shape f.dtype hd
    (by unfold isizeMax at halloc; unfold usizeMod; dsimp only at halloc; omega)
  let out : Hidden F := ⟨xs, [f.shape.batch.toNat, f.shape.seq.toNat, f.shape.hidden.toNat]⟩
  have hrun := answering_runsTo out hdec
  have hlen := length_reply f32 henc
  rw [hwide, Nat.add_right_cancel_iff] at hlen
  obtain ⟨len, hwrite⟩ := (writeFrame_tooLarge (hcbor _)).mpr (hlen ▸ hbig)
  refine hanswered Unit _ _ out hrun rfl len ?_
  rw [handleMessage_runsTo cd hrun, forwardReply_of_shape rfl, henc]
  exact hwrite

/-- An admitted forward can be answered whatever the layers make of it exactly when its longest
reply fits in a frame. -/
theorem answered_iff (hF : IeeeBytes F) {cd : Codec} (hcd : IsCbor cd) {f : Forward}
    {data : List F} (hdec : decodeHidden ⟨f.dtype, f.shape, f.payload⟩ = .ok (f.shape, data)) :
    Answered F cd f ↔ worstReplyLen f ≤ maxFrameBytes := by
  constructor
  · intro hanswered
    by_contra hbig
    exact not_answered_of_exceeds hF hcd hdec (by omega) hanswered
  · exact answered_of_fits hF hcd

end Replies

private theorem foldl_max_replicate (h : Nat) (y : ℚ) (hy : 0 < y) :
    (List.replicate (h + 1) y).foldl (fun m x => F32.max m (F32.abs x)) 0 = y := by
  have habs : F32.abs y = y := if_neg (by linarith)
  have hstep : F32.max 0 y = y := if_pos hy
  have hrest : ∀ n, (List.replicate n y).foldl (fun m x => F32.max m (F32.abs x)) y = y := by
    intro n
    induction n with
    | zero => rfl
    | succ n ih =>
        have hsame : F32.max y y = y := if_neg (lt_irrefl y)
        rw [List.replicate_succ, List.foldl_cons, habs, hsame, ih]
  rw [List.replicate_succ, List.foldl_cons, habs, hstep, hrest]

private theorem int8Scale_wide (h : Nat) :
    int8Scale (List.replicate (h + 1) (127 * wideScale)) = wideScale := by
  have hfold := foldl_max_replicate h (127 * wideScale) (by decide +kernel)
  have hlt : F32.lt (F32.ofInt 0) (127 * wideScale) = true := by decide +kernel
  have hdiv : F32.div (127 * wideScale) (F32.ofInt 127) = wideScale := by decide +kernel
  have hzero : (F32.ofInt 0 : ℚ) = 0 := rfl
  rw [← hzero] at hfold
  simp only [int8Scale, hfold, hlt, if_true, hdiv]

private theorem rat_ieeeBytes : IeeeBytes ℚ where
  zero_lt_zero := by decide +kernel
  one := by decide +kernel
  half := ⟨wideHalf, by decide +kernel⟩
  row h hpos := by
    obtain ⟨h, rfl⟩ := Nat.exists_eq_succ_of_ne_zero hpos.ne'
    refine ⟨List.replicate (h + 1) (127 * wideScale), List.length_replicate, ?_, ?_⟩
    · rw [int8Scale_wide]
      decide +kernel
    · intro x hx
      rw [List.eq_of_mem_replicate hx, int8Scale_wide]
      decide +kernel

private def cborOf (m₀ : Msg) : Codec where
  encode m := .ok (Cbor.msg (fun _ => []) m)
  decode b := if b = Cbor.msg (fun _ => []) m₀ then .ok m₀ else .error "unsupported"

/-- A half-float request of `hidden` zeros. -/
private def zerosRequest (hidden : UInt32) : Forward :=
  { sessionId := ⟨Vector.replicate 32 0⟩, seq := 1, phase := .decode, dtype := .fp16
    shape := ⟨1, 1, hidden⟩, payload := List.replicate (2 * hidden.toNat) 0
    kvDelta := none, kvTruncateTo := none }

theorem answered_iff_one_value :
    Answered ℚ (cborOf (.forwardHidden (zerosRequest 1))) (zerosRequest 1) := by
  have hdec : decodeHidden ⟨.fp16, ⟨1, 1, 1⟩, (zerosRequest 1).payload⟩ =
      .ok (⟨1, 1, 1⟩, [(0 : ℚ)]) := by decide +kernel
  exact (answered_iff rat_ieeeBytes ⟨_, fun _ => rfl⟩ hdec).mpr (by decide)

/-- 4200000 zeros fit in a frame, and some outputs of their shape do not. -/
theorem reply_exceeds_frame :
    let f := zerosRequest 4200000
    let cd := cborOf (.forwardHidden f)
    decodeFrame cd (frameBytes cd (.forwardHidden f)) = (.ok (some (.forwardHidden f)), []) ∧
      ¬ Answered ℚ cd f := by
  intro f cd
  have hpayload : f.payload = List.replicate 8400000 0 := rfl
  have hshape : f.shape = ⟨1, 1, 4200000⟩ := rfl
  have hlen : (Cbor.forward f).length ≤ maxFrameBytes := by
    rw [Cbor.length_forward_reply f rfl rfl rfl, Cbor.length_bytes, hpayload, hshape,
      List.length_replicate, List.countP_replicate]
    decide
  have hdec : decodeHidden ⟨f.dtype, f.shape, f.payload⟩ =
      .ok (f.shape, (decodeFp16 f.payload : List ℚ)) := by
    refine decodeHidden_eq_ok.mpr ⟨?_, by rw [hshape]; decide, .inl ⟨rfl, rfl⟩⟩
    have hsize : payloadLen .fp16 ⟨1, 1, 4200000⟩ = 8400000 := by decide
    rw [hpayload, List.length_replicate, hshape]
    exact hsize.symm
  constructor
  · have hframe := decodeFrame_frameBytes_append
      (show cd.encode (.forwardHidden f) = .ok _ from rfl)
      hlen (if_pos rfl) []
    rwa [List.append_nil] at hframe
  · exact not_answered_of_exceeds rat_ieeeBytes ⟨_, fun _ => rfl⟩ hdec (by decide)

end IntelNav.App
