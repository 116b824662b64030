import IntelNav.App.Chains
import IntelNav.App.Contribute
import IntelNav.Runtime.GgmlBackend
import IntelNav.Wire.Frame

/-! The forward listener (`crates/app/src/forward_server.rs`): one message of one connection at a
time. -/

set_option autoImplicit false
set_option relaxedAutoImplicit false

namespace IntelNav.App

open IntelNav.Core IntelNav.Ggml IntelNav.Runtime IntelNav.Wire

variable {F K : Type}

/-- One loaded model, with the KV caches of its only inference context. `localOffset` is what a
layer index is lowered by: 0 for a full GGUF, the first layer for a stitched one. -/
structure LoadedSlice (F K : Type) where
  handle : Pipelined F K
  kv : K
  localOffset : Nat

/-- The files under the models directory as far as loading a slice goes: the sidecars, which GGUF
files exist, the stitched subset of a shard, and the model loaded from a GGUF. -/
structure SliceFiles (F K : Type) where
  disk : Shards
  fileExists : String → Bool
  stitchSubset : String → UInt16 → UInt16 → UInt16 → Except String String
  load : String → Except String (Pipelined F K × K)

/-- What the connections of one listener share: the control state, and the loaded slices with the
cache that finds them; a handle is an index into `slices`. -/
structure Server (F K : Type) where
  host : Host
  files : SliceFiles F K
  cache : AList fun _ : SliceKey => Nat
  slices : List (LoadedSlice F K)

/-- The local variables of `handle_connection`. -/
structure Connection where
  sessionId : Option SessionId
  indexPos : Nat
  lastSeq : Nat
  activeSlice : Option SliceKey
  guard : Option ChainGuard
  loaded : Option Nat
  deriving DecidableEq

def Connection.new : Connection :=
  { sessionId := none, indexPos := 0, lastSeq := 0, activeSlice := none, guard := none,
    loaded := none }

/-- Why `handle_connection` returned an error. -/
inductive ServeError
  | load (reason : String)
  | beforeSessionInit
  | sessionMismatch
  | outOfOrder (last got : Nat)
  | notLoaded
  | noSlice
  | truncate (reason : String)
  | hidden (e : HiddenError)
  | forward (reason : String)
  | panic
  | driverOnly
  | sessionAck
  | write (e : WireError)
  deriving DecidableEq

/-- Whether the loop goes on after a message, or the function returns. -/
inductive Served
  | next
  | done
  | failed (e : ServeError)
  deriving DecidableEq

/-- Where a slice's model comes from: the full GGUF when the sidecar's path exists, else the
stitched subset. -/
def SliceFiles.resolve (files : SliceFiles F K) (key : SliceKey) : Except String (String × Nat) :=
  let (cid, start, stop) := key
  match files.disk.kept cid with
  | none => .error s!"read kept_ranges.json of {cid}"
  | some kept =>
      if (files.disk.loadDisabled cid).contains start stop then
        .error s!"slice {start}..{stop} is disabled on disk"
      else if !kept.kept.any (fun r => r.1 = start ∧ r.2 = stop) then
        .error s!"slice {start}..{stop} not present in kept_ranges.json"
      else if kept.ggufPath ≠ "" && files.fileExists kept.ggufPath then .ok (kept.ggufPath, 0)
      else (files.stitchSubset cid start stop kept.blockCount).map fun p => (p, start.toNat)

/-- `prepare_slice`: the cached handle, or a freshly loaded one, which is cached. -/
def Server.prepareSlice (s : Server F K) (key : SliceKey) :
    Except String Nat × Server F K :=
  match s.cache.lookup key with
  | some i => (.ok i, s)
  | none =>
      match s.files.resolve key with
      | .error e => (.error e, s)
      | .ok (path, localOffset) =>
          match s.files.load path with
          | .error e => (.error e, s)
          | .ok (handle, kv) =>
              (.ok s.slices.length,
                { s with
                  cache := s.cache.insert key s.slices.length
                  slices := s.slices ++ [⟨handle, kv, localOffset⟩] })

def Server.setKv (s : Server F K) (i : Nat) (kv : K) : Server F K :=
  { s with slices := s.slices.modify i fun slice => { slice with kv } }

def Server.dropGuard (s : Server F K) : Option ChainGuard → Server F K
  | some g => { s with host := (s.host.step (.dropGuard g)).getD s.host }
  | none => s

/-- `write_frame`: what follows the write of `m`, where a message that does not fit in a frame ends
the connection. -/
def writeFrame (cd : Codec) (m : Msg) (after : Served) : List Msg × Served :=
  match (encodeFrame cd [] m).1 with
  | .ok () => ([m], after)
  | .error e => ([], .failed (.write e))

/-- The `ForwardHidden` arm, once the session and its slice are found and the slice is locked:
truncate, run the layers, advance. -/
def forwardSlice [F32 F] (slice : LoadedSlice F K) (indexPos start stop : Nat) (f : Forward) :
    Except ServeError (Hidden F) × K × Nat :=
  let truncated : Except String Unit × K × Nat :=
    match f.kvTruncateTo with
    | some keep =>
        let (r, kv) := slice.handle.truncateKvTo keep.toNat slice.kv
        (r, kv, if r.isOk then keep.toNat else indexPos)
    | none => (.ok (), slice.kv, indexPos)
  match truncated with
  | (.error e, kv, pos) => (.error (.truncate e), kv, pos)
  | (.ok (), kv, pos) =>
      match decodeHidden ⟨f.dtype, f.shape, f.payload⟩ with
      | .error e => (.error (.hidden e), kv, pos)
      | .ok (shape, data) =>
          match Hidden.new data [shape.batch.toNat, shape.seq.toNat, shape.hidden.toNat] with
          | .error e => (.error (.hidden e), kv, pos)
          | .ok hidden =>
              match slice.handle.forwardRange hidden pos (start - slice.localOffset)
                (stop - slice.localOffset) kv with
              | (.error e, kv) => (.error (.forward e), kv, pos)
              | (.ok out, kv) => (.ok out, kv, pos + shape.seq.toNat)

def forwardReply [F32 F] (f : Forward) (out : Hidden F) : Except ServeError Forward :=
  match out.shape with
  | b :: seq :: h :: _ =>
      match encodeHiddenWith out.data ⟨UInt32.ofNat b, UInt32.ofNat seq, UInt32.ofNat h⟩
        f.dtype with
      | .error e => .error (.hidden e)
      | .ok p =>
          .ok
            { sessionId := f.sessionId, seq := f.seq, phase := .decode, dtype := p.dtype,
              shape := p.shape, payload := p.bytes, kvDelta := none, kvTruncateTo := none }
  | _ => .error .panic

/-- The body of the loop of `handle_connection`: the messages written and what comes next. -/
def handleMessage [F32 F] (cd : Codec) (s : Server F K) (c : Connection) (m : Msg) :
    (List Msg × Served) × Server F K × Connection :=
  match m with
  | .hello _ protoVer _ =>
      (writeFrame cd (.hello ⟨Vector.replicate 32 0⟩ protoVer [.q4km, .fp16]) .next, s, c)
  | .sessionInit sid _ cid range _ =>
      let key : SliceKey := (cid, range.start, range.stop)
      match s.host.step (.acceptChain key) with
      | none =>
          (writeFrame cd (.abortSession sid
            s!"slice {cid} [{range.start}..{range.stop}) not announcing on this peer") .done, s, c)
      | some host =>
          let s := ({ s with host : Server F K }).dropGuard c.guard
          let c := { c with guard := some ⟨host.nextGuard - 1, key⟩, activeSlice := some key }
          match s.prepareSlice key with
          | (.error e, s) =>
              (writeFrame cd (.abortSession sid s!"load slice failed: {e}") (.failed (.load e)), s,
                c)
          | (.ok i, s) =>
              let s :=
                match s.slices[i]? with
                | some slice => s.setKv i (slice.handle.resetCache slice.kv)
                | none => s
              (writeFrame cd (.sessionAck sid (Vector.replicate 32 0)) .next, s,
                { c with loaded := some i, sessionId := some sid, indexPos := 0, lastSeq := 0 })
  | .forwardHidden f =>
      match c.sessionId with
      | none => (([], .failed .beforeSessionInit), s, c)
      | some cur =>
          if cur ≠ f.sessionId then (([], .failed .sessionMismatch), s, c)
          else if f.seq ≤ c.lastSeq ∧ c.lastSeq > 0 then
            (([], .failed (.outOfOrder c.lastSeq f.seq)), s, c)
          else
            let c := { c with lastSeq := f.seq }
            match c.loaded.bind fun i => (s.slices[i]?).map fun slice => (i, slice) with
            | none => (([], .failed .notLoaded), s, c)
            | some (i, slice) =>
                match c.activeSlice with
                | none => (([], .failed .noSlice), s, c)
                | some (_, start, stop) =>
                    let (r, kv, pos) := forwardSlice slice c.indexPos start.toNat stop.toNat f
                    let s := s.setKv i kv
                    let c := { c with indexPos := pos }
                    match r.bind (forwardReply f) with
                    | .error e => (([], .failed e), s, c)
                    | .ok reply => (writeFrame cd (.forwardHidden reply) .next, s, c)
  | .abortSession .. => (([], .done), s, c)
  | .heartbeat .. | .advertise .. | .gossip .. => (([], .next), s, c)
  | .prompt .. | .token .. => (([], .failed .driverOnly), s, c)
  | .sessionAck .. => (([], .failed .sessionAck), s, c)

end IntelNav.App
