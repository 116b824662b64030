import IntelNav.Wire.Cbor
import IntelNav.Wire.Frame

/-! The framed codec over a stream cut into arbitrary reads. -/

set_option autoImplicit false
set_option relaxedAutoImplicit false

namespace IntelNav.Wire

open IntelNav.Core IntelNav.Stream

private theorem readResult_items (ms : List Msg) (tail : List (Pulled Msg WireError)) :
    (ms.map Pulled.item ++ tail).map readResult =
      ms.map (fun m => .ok (some m)) ++ tail.map readResult := by
  simp [Function.comp_def, readResult]

private theorem read_cases {cd : Codec}
    {read : List UInt8 → List (Arrival UInt8) →
      Except ReadError (Option Msg) × List UInt8 × List (Arrival UInt8)}
    (hread : read = readFrame cd ∨ read = readWithTimeout cd) :
    ∃ deadline, ∀ n buf sock, reads read n buf sock =
      ((pulls (decodeFrame cd) deadline n buf sock).1.map readResult,
        (pulls (decodeFrame cd) deadline n buf sock).2) := by
  rcases hread with rfl | rfl
  · exact ⟨false, fun n buf sock => reads_eq_pulls cd false n buf sock⟩
  · exact ⟨true, fun n buf sock => reads_eq_pulls cd true n buf sock⟩

/-- Both read loops, called again and again, return the messages of a complete stream in order and
then its end, with an empty buffer. -/
private theorem reads_complete {cd : Codec} (hcd : cd.RoundTrips)
    {read : List UInt8 → List (Arrival UInt8) →
      Except ReadError (Option Msg) × List UInt8 × List (Arrival UInt8)}
    (hread : read = readFrame cd ∨ read = readWithTimeout cd)
    (ms : List Msg) (hms : ∀ m ∈ ms, cd.Fits m) (chunks : List (List UInt8))
    (hne : ∀ c ∈ chunks, c ≠ []) (hstream : chunks.flatten = encodeFrames cd ms) (n : Nat) :
    reads read (ms.length + (n + 1)) [] (pieces chunks) =
      (ms.map (fun m => .ok (some m)) ++ List.replicate (n + 1) (.ok none), [], []) := by
  obtain ⟨deadline, heq⟩ := read_cases hread
  have hpulls := pulls_complete (frameBytes_framing hcd) deadline ms hms n chunks hne
    (hstream.trans (encodeFrames_eq ms hms))
  rw [heq, hpulls, readResult_items]
  simp [readResult]

/-- On a stream cut inside the frame of `m` they return the messages before it, then an error at
this and every later call. -/
private theorem reads_truncated {cd : Codec} (hcd : cd.RoundTrips)
    {read : List UInt8 → List (Arrival UInt8) →
      Except ReadError (Option Msg) × List UInt8 × List (Arrival UInt8)}
    (hread : read = readFrame cd ∨ read = readWithTimeout cd)
    (ms : List Msg) (hms : ∀ m ∈ ms, cd.Fits m) {m : Msg} (hm : cd.Fits m) {p rest : List UInt8}
    (hp : p ≠ []) (hrest : rest ≠ []) (hframe : frameBytes cd m = p ++ rest)
    (chunks : List (List UInt8)) (hne : ∀ c ∈ chunks, c ≠ [])
    (hstream : chunks.flatten = encodeFrames cd ms ++ p) (n : Nat) :
    (reads read (ms.length + n) [] (pieces chunks)).1 =
      ms.map (fun m => .ok (some m)) ++ List.replicate n (.error (.truncated p.length)) := by
  obtain ⟨deadline, heq⟩ := read_cases hread
  have hpulls := pulls_truncated (frameBytes_framing hcd) deadline ms hms hm hp hframe hrest n
    chunks hne (by rw [hstream, encodeFrames_eq ms hms])
  rw [heq, hpulls, readResult_items, List.map_replicate]
  simp [readResult]

/-- The sender refuses a body exactly when the receiver would refuse every prefix that announces
its length; a length no four-byte prefix can announce is always refused. -/
private theorem encodeFrame_refuses_iff {cd : Codec} {m : Msg} {b : List UInt8}
    (henc : cd.encode m = .ok b) (dst rest : List UInt8) :
    (encodeFrame cd dst m).1 = .error (.frameTooLarge b.length maxFrameBytes) ↔
      ∀ b₀ b₁ b₂ b₃, fromBeBytes b₀ b₁ b₂ b₃ = b.length →
        (decodeFrame cd (b₀ :: b₁ :: b₂ :: b₃ :: rest)).1 =
          .error (.frameTooLarge b.length maxFrameBytes) := by
  constructor
  · intro h b₀ b₁ b₂ b₃ hlead
    have hbig : b.length > maxFrameBytes := by
      by_contra hle
      rw [encodeFrame_of_fits henc (by omega)] at h
      cases h
    simp only [decodeFrame, hlead, if_pos hbig]
  · intro h
    by_cases hbig : maxFrameBytes < b.length
    · rw [encodeFrame_oversized henc hbig]
    · exfalso
      obtain ⟨c, b₀, b₁, b₂, b₃, hc, hlen, -, hlead⟩ := frameBytes_of_fits ⟨b, henc, by omega⟩
      obtain rfl : b = c := by simpa [henc] using hc
      have hrefused := h b₀ b₁ b₂ b₃ hlead
      simp only [decodeFrame, hlead, if_neg hbig] at hrefused
      split_ifs at hrefused
      cases hdec : cd.decode (rest.take b.length) <;> simp [decode, hdec] at hrefused

/-- The framed streaming codec: a complete stream is delivered exactly, a cut one up to the cut,
an oversized message changes nothing, and both ends draw the size limit at the same lengths. -/
theorem framed_streaming_codec (cd : Codec) (hcd : cd.RoundTrips) :
    (∀ read, read = readFrame cd ∨ read = readWithTimeout cd →
      ∀ ms : List Msg, (∀ m ∈ ms, cd.Fits m) →
        (∀ chunks : List (List UInt8), (∀ c ∈ chunks, c ≠ []) →
          chunks.flatten = encodeFrames cd ms → ∀ n,
            reads read (ms.length + (n + 1)) [] (pieces chunks) =
              (ms.map (fun m => .ok (some m)) ++ List.replicate (n + 1) (.ok none), [], [])) ∧
        (∀ m p rest, cd.Fits m → p ≠ [] → rest ≠ [] → frameBytes cd m = p ++ rest →
          ∀ chunks : List (List UInt8), (∀ c ∈ chunks, c ≠ []) →
            chunks.flatten = encodeFrames cd ms ++ p → ∀ n,
              (reads read (ms.length + n) [] (pieces chunks)).1 =
                ms.map (fun m => .ok (some m)) ++
                  List.replicate n (.error (.truncated p.length)))) ∧
    (∀ m b dst, cd.encode m = .ok b → maxFrameBytes < b.length →
      encodeFrame cd dst m = (.error (.frameTooLarge b.length maxFrameBytes), dst)) ∧
    (∀ m b dst rest, cd.encode m = .ok b →
      ((encodeFrame cd dst m).1 = .error (.frameTooLarge b.length maxFrameBytes) ↔
        ∀ b₀ b₁ b₂ b₃, fromBeBytes b₀ b₁ b₂ b₃ = b.length →
          (decodeFrame cd (b₀ :: b₁ :: b₂ :: b₃ :: rest)).1 =
            .error (.frameTooLarge b.length maxFrameBytes))) := by
  refine ⟨fun read hread ms hms => ⟨fun chunks hne hstream n => ?_,
    fun m p rest hm hp hrest hframe chunks hne hstream n => ?_⟩,
    fun m b dst henc hbig => encodeFrame_oversized henc hbig dst,
    fun m b dst rest henc => encodeFrame_refuses_iff henc dst rest⟩
  · exact reads_complete hcd hread ms hms chunks hne hstream n
  · exact reads_truncated hcd hread ms hms hm hp hrest hframe chunks hne hstream n

private def oneMessageCodec (m₀ : Msg) : Codec where
  encode m := if m = m₀ then .ok (Cbor.msg (fun _ => []) m₀) else .error "unsupported"
  decode b := if b = Cbor.msg (fun _ => []) m₀ then .ok m₀ else .error "unsupported"

private theorem oneMessageCodec_roundTrips (m₀ : Msg) : (oneMessageCodec m₀).RoundTrips := by
  intro m b henc
  simp only [oneMessageCodec] at henc ⊢
  split_ifs at henc with hm
  simp only [Except.ok.injEq] at henc
  simp [hm, henc]

private def sampleHeartbeat : Msg := .heartbeat ⟨Vector.replicate 32 1⟩ 42 100

/-- Two heartbeats read in pieces of one and of many bytes. -/
theorem framed_streaming_codec_heartbeats :
    let cd := oneMessageCodec sampleHeartbeat
    let stream := encodeFrames cd [sampleHeartbeat, sampleHeartbeat]
    reads (readFrame cd) 3 [] (pieces [stream.take 1, stream.drop 1]) =
      ([.ok (some sampleHeartbeat), .ok (some sampleHeartbeat), .ok none], [], []) := by
  have hfits : (oneMessageCodec sampleHeartbeat).Fits sampleHeartbeat :=
    ⟨Cbor.msg (fun _ => []) sampleHeartbeat, by simp [oneMessageCodec], by decide⟩
  refine ((framed_streaming_codec _ (oneMessageCodec_roundTrips sampleHeartbeat)).1 _ (.inl rfl)
    [sampleHeartbeat, sampleHeartbeat] (by simpa using hfits)).1 _ ?_
    (by rw [List.flatten_cons, List.flatten_singleton, List.take_append_drop]) 0
  decide

end IntelNav.Wire
