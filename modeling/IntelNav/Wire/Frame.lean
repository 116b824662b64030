import IntelNav.Wire.Msg
import IntelNav.Stream.Pull
import Mathlib.Data.List.Basic

/-! Length-prefixed framing of `crates/wire`, and the two read loops over it. -/

set_option autoImplicit false
set_option relaxedAutoImplicit false

namespace IntelNav.Wire

open IntelNav.Stream

inductive WireError
  | encode (msg : String)
  | decode (msg : String)
  | frameTooLarge (len max : Nat)
  deriving DecidableEq

def maxFrameBytes : Nat := 16 * 1024 * 1024

/-- The CBOR serializer and deserializer the crate calls (`ciborium` through serde). -/
structure Codec where
  encode : Msg → Except String (List UInt8)
  decode : List UInt8 → Except String Msg

def Codec.RoundTrips (cd : Codec) : Prop :=
  ∀ m b, cd.encode m = .ok b → cd.decode b = .ok m

def encode (cd : Codec) (msg : Msg) : Except WireError (List UInt8) :=
  match cd.encode msg with
  | .ok b => .ok b
  | .error e => .error (.encode e)

def decode (cd : Codec) (bytes : List UInt8) : Except WireError Msg :=
  match cd.decode bytes with
  | .ok m => .ok m
  | .error e => .error (.decode e)

/-- `put_u32`: big endian. -/
def toBeBytes (n : UInt32) : List UInt8 :=
  [(n >>> 24).toUInt8, (n >>> 16).toUInt8, (n >>> 8).toUInt8, n.toUInt8]

/-- `u32::from_be_bytes`, read as a length. -/
def fromBeBytes (b₀ b₁ b₂ b₃ : UInt8) : Nat :=
  ((b₀.toNat * 256 + b₁.toNat) * 256 + b₂.toNat) * 256 + b₃.toNat

/-- Length-prefix and encode a message into `dst`; returns what `dst` becomes. -/
def encodeFrame (cd : Codec) (dst : List UInt8) (msg : Msg) : Except WireError Unit × List UInt8 :=
  match encode cd msg with
  | .error e => (.error e, dst)
  | .ok payload =>
    if payload.length > maxFrameBytes then
      (.error (.frameTooLarge payload.length maxFrameBytes), dst)
    else (.ok (), dst ++ toBeBytes (UInt32.ofNat payload.length) ++ payload)

/-- Pull a single framed message from the front of `src`; returns what `src` becomes. -/
def decodeFrame (cd : Codec) (src : List UInt8) : Except WireError (Option Msg) × List UInt8 :=
  match src with
  | b₀ :: b₁ :: b₂ :: b₃ :: body =>
    let len := fromBeBytes b₀ b₁ b₂ b₃
    if len > maxFrameBytes then (.error (.frameTooLarge len maxFrameBytes), src)
    else if src.length < 4 + len then (.ok none, src)
    else
      match decode cd (body.take len) with
      | .error e => (.error e, body.drop len)
      | .ok msg => (.ok (some msg), body.drop len)
  | _ => (.ok none, src)

/-- What a read loop can report besides a message or the end of the stream. -/
inductive ReadError
  | wire (e : WireError)
  | truncated (buffered : Nat)
  | timeout
  deriving DecidableEq

def readResult : Pulled Msg WireError → Except ReadError (Option Msg)
  | .item m => .ok (some m)
  | .closed => .ok none
  | .cut n => .error (.truncated n)
  | .failed e => .error (.wire e)
  | .late => .error .timeout

/-- `read_frame` of the forward server: the loop without a deadline. -/
def readFrame (cd : Codec) (buf : List UInt8) (sock : List (Arrival UInt8)) :
    Except ReadError (Option Msg) × List UInt8 × List (Arrival UInt8) :=
  let (r, rest) := pull (decodeFrame cd) false buf sock
  (readResult r, rest)

/-- `Chain::read_with_timeout`: the same loop raced against the step timeout. -/
def readWithTimeout (cd : Codec) (rx : List UInt8) (sock : List (Arrival UInt8)) :
    Except ReadError (Option Msg) × List UInt8 × List (Arrival UInt8) :=
  let (r, rest) := pull (decodeFrame cd) true rx sock
  (readResult r, rest)

/-- The results of `n` calls of a read loop in a row, with what they leave. -/
def reads (read : List UInt8 → List (Arrival UInt8) →
      Except ReadError (Option Msg) × List UInt8 × List (Arrival UInt8)) :
    Nat → List UInt8 → List (Arrival UInt8) →
      List (Except ReadError (Option Msg)) × List UInt8 × List (Arrival UInt8)
  | 0, buf, sock => ([], buf, sock)
  | n + 1, buf, sock =>
    let (r, buf', sock') := read buf sock
    let (rs, final) := reads read n buf' sock'
    (r :: rs, final)

/-- The buffer after `encode_frame` of each message in turn. -/
def encodeFrames (cd : Codec) (ms : List Msg) : List UInt8 :=
  ms.foldl (fun dst m => (encodeFrame cd dst m).2) []

def Codec.Fits (cd : Codec) (m : Msg) : Prop :=
  ∃ b, cd.encode m = .ok b ∧ b.length ≤ maxFrameBytes

def frameBytes (cd : Codec) (m : Msg) : List UInt8 := (encodeFrame cd [] m).2

private theorem fromBeBytes_toBeBytes (n : UInt32) :
    ∃ b₀ b₁ b₂ b₃, toBeBytes n = [b₀, b₁, b₂, b₃] ∧ fromBeBytes b₀ b₁ b₂ b₃ = n.toNat := by
  refine ⟨_, _, _, _, rfl, ?_⟩
  have h := n.toNat_lt
  simp only [fromBeBytes, UInt32.toNat_toUInt8, UInt32.toNat_shiftRight]
  simp [Nat.shiftRight_eq_div_pow]
  omega

theorem encodeFrame_of_fits {cd : Codec} {m : Msg} {b : List UInt8} (henc : cd.encode m = .ok b)
    (hlen : b.length ≤ maxFrameBytes) (dst : List UInt8) :
    encodeFrame cd dst m = (.ok (), dst ++ toBeBytes (UInt32.ofNat b.length) ++ b) := by
  have hnot : ¬ b.length > maxFrameBytes := by omega
  simp only [encodeFrame, encode, henc, if_neg hnot]

/-- An oversized message is refused and leaves `dst` unchanged. -/
theorem encodeFrame_oversized {cd : Codec} {m : Msg} {b : List UInt8} (henc : cd.encode m = .ok b)
    (hlen : maxFrameBytes < b.length) (dst : List UInt8) :
    encodeFrame cd dst m = (.error (.frameTooLarge b.length maxFrameBytes), dst) := by
  simp only [encodeFrame, encode, henc, if_pos hlen]

theorem encodeFrame_append {cd : Codec} {m : Msg} (hm : cd.Fits m) (dst : List UInt8) :
    encodeFrame cd dst m = (.ok (), dst ++ frameBytes cd m) := by
  obtain ⟨b, henc, hlen⟩ := hm
  simp [frameBytes, encodeFrame_of_fits henc hlen]

private theorem encodeFrames_from {cd : Codec} (ms : List Msg) (hms : ∀ m ∈ ms, cd.Fits m)
    (dst : List UInt8) :
    ms.foldl (fun dst m => (encodeFrame cd dst m).2) dst =
      dst ++ (ms.map (frameBytes cd)).flatten := by
  induction ms generalizing dst with
  | nil => simp
  | cons m ms ih =>
    rw [List.foldl_cons, encodeFrame_append (hms m List.mem_cons_self),
      ih (fun x hx => hms x (List.mem_cons_of_mem m hx))]
    simp [List.append_assoc]

theorem encodeFrames_eq {cd : Codec} (ms : List Msg) (hms : ∀ m ∈ ms, cd.Fits m) :
    encodeFrames cd ms = (ms.map (frameBytes cd)).flatten := by
  simpa [encodeFrames] using encodeFrames_from ms hms []

theorem frameBytes_of_fits {cd : Codec} {m : Msg} (hm : cd.Fits m) :
    ∃ b b₀ b₁ b₂ b₃, cd.encode m = .ok b ∧ b.length ≤ maxFrameBytes ∧
      frameBytes cd m = b₀ :: b₁ :: b₂ :: b₃ :: b ∧ fromBeBytes b₀ b₁ b₂ b₃ = b.length := by
  obtain ⟨b, henc, hlen⟩ := hm
  obtain ⟨b₀, b₁, b₂, b₃, hbe, hnat⟩ := fromBeBytes_toBeBytes (UInt32.ofNat b.length)
  have hmod : (UInt32.ofNat b.length).toNat = b.length := by
    rw [UInt32.toNat_ofNat']
    unfold maxFrameBytes at hlen
    omega
  refine ⟨b, b₀, b₁, b₂, b₃, henc, hlen, ?_, hnat.trans hmod⟩
  simp [frameBytes, encodeFrame_of_fits henc hlen, hbe]

theorem decodeFrame_frameBytes_append {cd : Codec} {m : Msg} {b : List UInt8}
    (henc : cd.encode m = .ok b) (hlen : b.length ≤ maxFrameBytes) (hdec : cd.decode b = .ok m)
    (rest : List UInt8) : decodeFrame cd (frameBytes cd m ++ rest) = (.ok (some m), rest) := by
  obtain ⟨b', b₀, b₁, b₂, b₃, henc', -, hframe, hnat⟩ := frameBytes_of_fits ⟨b, henc, hlen⟩
  obtain rfl : b = b' := by simpa [henc] using henc'
  have hlong : ¬ (b₀ :: b₁ :: b₂ :: b₃ :: (b ++ rest)).length < 4 + b.length := by
    simp only [List.length_cons, List.length_append]; omega
  have hcap : ¬ b.length > maxFrameBytes := by omega
  simp only [hframe, List.cons_append, decodeFrame, hnat, if_neg hcap, if_neg hlong,
    List.take_left, List.drop_left, decode, hdec]

/-- The frames of the crate are a framing: the prefix says how long the body is, so a whole frame
is recognised whatever follows it and a part of one never is. -/
theorem frameBytes_framing {cd : Codec} (hcd : cd.RoundTrips) :
    Framing (decodeFrame cd) (frameBytes cd) cd.Fits where
  nonempty m hm := by
    obtain ⟨b, b₀, b₁, b₂, b₃, -, -, hframe, -⟩ := frameBytes_of_fits hm
    simp [hframe]
  nothing := rfl
  whole m rest hm := by
    obtain ⟨b, henc, hlen⟩ := hm
    exact decodeFrame_frameBytes_append henc hlen (hcd m b henc) rest
  part m p rest hm hp hrest := by
    obtain ⟨b, b₀, b₁, b₂, b₃, henc, hlen, hframe, hnat⟩ := frameBytes_of_fits hm
    have hpos : 0 < rest.length := List.length_pos_iff.mpr hrest
    have htotal : p.length + rest.length = 4 + b.length := by
      have h := congrArg List.length (hframe.symm.trans hp)
      simp only [List.length_cons, List.length_append] at h
      omega
    rw [hframe] at hp
    match p, hp, htotal with
    | [], _, _ => rfl
    | [_], _, _ => rfl
    | [_, _], _, _ => rfl
    | [_, _, _], _, _ => rfl
    | c₀ :: c₁ :: c₂ :: c₃ :: body, hp, htotal =>
      simp only [List.cons_append, List.cons.injEq] at hp
      obtain ⟨rfl, rfl, rfl, rfl, -⟩ := hp
      have hcap : ¬ b.length > maxFrameBytes := by omega
      have hshort : (b₀ :: b₁ :: b₂ :: b₃ :: body).length < 4 + b.length := by omega
      simp only [decodeFrame, hnat, if_neg hcap, if_pos hshort]

theorem decodeFrame_frameBytes {cd : Codec} (hcd : cd.RoundTrips) {m : Msg} (hm : cd.Fits m) :
    decodeFrame cd (frameBytes cd m) = (.ok (some m), []) := by
  simpa using (frameBytes_framing hcd).whole m [] hm

private theorem decodeFrame_cons (cd : Codec) (b₀ b₁ b₂ b₃ : UInt8) (body : List UInt8) :
    decodeFrame cd (b₀ :: b₁ :: b₂ :: b₃ :: body) =
      if maxFrameBytes < fromBeBytes b₀ b₁ b₂ b₃ then
        (.error (.frameTooLarge (fromBeBytes b₀ b₁ b₂ b₃) maxFrameBytes),
          b₀ :: b₁ :: b₂ :: b₃ :: body)
      else if body.length < fromBeBytes b₀ b₁ b₂ b₃ then
        (.ok none, b₀ :: b₁ :: b₂ :: b₃ :: body)
      else
        ((decode cd (body.take (fromBeBytes b₀ b₁ b₂ b₃))).map some,
          body.drop (fromBeBytes b₀ b₁ b₂ b₃)) := by
  have hlen : (b₀ :: b₁ :: b₂ :: b₃ :: body).length < 4 + fromBeBytes b₀ b₁ b₂ b₃ ↔
      body.length < fromBeBytes b₀ b₁ b₂ b₃ := by
    simp only [List.length_cons]
    omega
  rw [decodeFrame]
  simp only [hlen]
  split_ifs
  · rfl
  · rfl
  · cases decode cd (body.take (fromBeBytes b₀ b₁ b₂ b₃)) <;> rfl

private theorem decodeFrame_short {cd : Codec} {src : List UInt8} (h : src.length < 4) :
    decodeFrame cd src = (.ok none, src) := by
  match src, h with
  | [], _ => rfl
  | [_], _ => rfl
  | [_, _], _ => rfl
  | [_, _, _], _ => rfl

private theorem exists_prefix {src : List UInt8} (h : 4 ≤ src.length) :
    ∃ b₀ b₁ b₂ b₃ body, src = b₀ :: b₁ :: b₂ :: b₃ :: body := by
  match src, h with
  | b₀ :: b₁ :: b₂ :: b₃ :: body, _ => exact ⟨b₀, b₁, b₂, b₃, body, rfl⟩

/-- Whatever the decoder makes of a buffer but for asking for more, it makes of a longer one. -/
private theorem decodeFrame_append {cd : Codec} {src src' : List UInt8}
    {r : Except WireError (Option Msg)} (h : decodeFrame cd src = (r, src')) (hr : r ≠ .ok none)
    (more : List UInt8) : decodeFrame cd (src ++ more) = (r, src' ++ more) := by
  by_cases hlen : src.length < 4
  · rw [decodeFrame_short hlen] at h
    exact absurd (Prod.mk.inj h).1.symm hr
  · obtain ⟨b₀, b₁, b₂, b₃, body, rfl⟩ := exists_prefix (by omega : 4 ≤ src.length)
    rw [decodeFrame_cons] at h
    simp only [List.cons_append]
    rw [decodeFrame_cons]
    split_ifs at h with hbig hshort
    · obtain ⟨rfl, rfl⟩ := Prod.mk.inj h
      rw [if_pos hbig]
      rfl
    · exact absurd (Prod.mk.inj h).1.symm hr
    · obtain ⟨rfl, rfl⟩ := Prod.mk.inj h
      have hle : fromBeBytes b₀ b₁ b₂ b₃ ≤ body.length := by omega
      rw [if_neg hbig, if_neg (by rw [List.length_append]; omega),
        List.take_append_of_le_length hle, List.drop_append_of_le_length hle]

theorem decodeFrame_frontOnly (cd : Codec) : FrontOnly (decodeFrame cd) where
  waits src src' h := by
    by_cases hlen : src.length < 4
    · rw [decodeFrame_short hlen] at h
      exact (Prod.mk.inj h).2.symm
    · obtain ⟨b₀, b₁, b₂, b₃, body, rfl⟩ := exists_prefix (by omega : 4 ≤ src.length)
      rw [decodeFrame_cons] at h
      split_ifs at h
      · cases (Prod.mk.inj h).1
      · exact (Prod.mk.inj h).2.symm
      · cases hdec : decode cd (body.take (fromBeBytes b₀ b₁ b₂ b₃)) with
        | ok m =>
            rw [hdec] at h
            cases (Prod.mk.inj h).1
        | error e =>
            rw [hdec] at h
            cases (Prod.mk.inj h).1
  item _ _ _ more h := decodeFrame_append h (by simp) more
  error _ _ _ more h := decodeFrame_append h (by simp) more

theorem reads_eq_pulls (cd : Codec) (deadline : Bool) (n : Nat) (buf : List UInt8)
    (sock : List (Arrival UInt8)) :
    reads (fun buf sock =>
        let (r, rest) := pull (decodeFrame cd) deadline buf sock
        (readResult r, rest)) n buf sock =
      ((pulls (decodeFrame cd) deadline n buf sock).1.map readResult,
        (pulls (decodeFrame cd) deadline n buf sock).2) := by
  induction n generalizing buf sock with
  | zero => rfl
  | succ n ih => simp only [reads, pulls, ih, List.map_cons]

end IntelNav.Wire
