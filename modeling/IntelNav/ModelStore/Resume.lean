import IntelNav.ModelStore.ChunkOutput
import IntelNav.ModelStore.HttpSpec

/-! Downloads that go on where an earlier one stopped (`fetch_one` of
`crates/model-store/src/http.rs`). -/

set_option autoImplicit false
set_option relaxedAutoImplicit false

namespace IntelNav.ModelStore

open IntelNav.Disk

/-- The reply to a request from position `n` on: status 206 with the rest of the chunk, or status
200 with the whole of it, in whatever pieces. -/
def Reply.Answers (reply : Reply) (bytes : Bytes) (n : Nat) : Prop :=
  sentBytes reply.body = some (if reply.partialContent then bytes.drop n else bytes)

def ChunkServer.Answers (server : ChunkServer) (cid : String) (bytes : Bytes) : Prop :=
  ∀ n, ∃ reply, server.chunk cid n = some reply ∧ reply.Answers bytes n

/-- The fetch ends well and leaves the bytes under the name of the chunk. -/
def Fetched (hash : Hashing) (chunksDir : Location) (chunk : Chunk) (server : ChunkServer)
    (files : Files) (bytes : Bytes) : Prop :=
  (∃ r, (fetchOne hash chunksDir chunk true server files).1 = .ok r) ∧
    (fetchOne hash chunksDir chunk true server files).2.lookup
      (join chunksDir (chunk.cid ++ ".bin")) = some bytes

def InCache (hash : Hashing) (chunksDir : Location) (chunk : Chunk) (files : Files) : Prop :=
  ∃ cached, files.lookup (join chunksDir (chunk.cid ++ ".bin")) = some cached ∧
    cached.length = chunk.size ∧ hash.cidStringFor cached = chunk.cid

/-- What an earlier download left of the chunk is nothing or all, or the server sends the rest. -/
def Resumable (chunksDir : Location) (chunk : Chunk) (server : ChunkServer) (files : Files)
    (bytes : Bytes) : Prop :=
  ∀ p, files.lookup (join chunksDir (chunk.cid ++ ".bin.tmp")) = some p →
    p = [] ∨ p = bytes ∨
      ∃ reply, server.chunk chunk.cid p.length = some reply ∧ reply.partialContent = true

variable {hash : Hashing} {chunksDir : Location} {chunk : Chunk} {server : ChunkServer}
  {files : Files} {bytes : Bytes}

private theorem finishDownload_miscounted {final tmp : Location} {d : Download}
    (h : d.total ≠ chunk.size) (r : FetchOne) :
    (finishDownload hash chunk final tmp d true files).1 ≠ .ok r := by
  intro hr
  unfold finishDownload at hr
  dsimp only at hr
  rw [if_neg (by simp), if_pos h] at hr
  cases hr

private theorem finishDownload_right {final tmp : Location} (hsize : chunk.size = bytes.length)
    (hcid : chunk.cid = hash.cidStringFor bytes) :
    finishDownload hash chunk final tmp ⟨bytes, bytes, bytes.length⟩ true files =
      (.ok ⟨chunk.size, false⟩, renameFile (files.insert tmp bytes) tmp final) := by
  unfold finishDownload
  dsimp only
  rw [if_neg (by simp), if_neg (by simp [hsize]), if_neg (by simp [hcid])]

private theorem resumePoint_prefix {tmp : Location} (hsize : chunk.size = bytes.length)
    (hleft : ∀ p, files.lookup tmp = some p → p <+: bytes) :
    (∃ p, files.lookup tmp = some p ∧ p ≠ bytes ∧
        resumePoint files tmp chunk true = (p.length, files)) ∨
      (resumePoint files tmp chunk true).1 = 0 ∧
        ∀ p, files.lookup tmp = some p → p = bytes := by
  unfold resumePoint
  cases htmp : files.lookup tmp with
  | none => exact .inr ⟨rfl, nofun⟩
  | some p =>
      have hprefix := hleft p htmp
      by_cases hshort : p.length < chunk.size
      · refine .inl ⟨p, rfl, ?_, ?_⟩
        · rintro rfl
          omega
        · simp [hshort]
      · refine .inr ⟨by simp [hshort], fun q hq => ?_⟩
        obtain rfl := Option.some.inj hq
        exact hprefix.eq_of_length_le (by omega)

private theorem stream_resumed {tmp : Location} {reply : Reply} {p : Bytes} (hp : p <+: bytes)
    (hlookup : files.lookup tmp = some p) (hanswer : reply.Answers bytes p.length)
    (hresumed : reply.partialContent = true) :
    (startDownload files tmp p.length reply).stream reply.body =
      (⟨bytes, bytes, bytes.length⟩, true) := by
  obtain ⟨rest, rfl⟩ := hp
  rw [Reply.Answers, if_pos hresumed, List.drop_left] at hanswer
  have hstart : startDownload files tmp p.length reply = ⟨p, p, p.length⟩ := by
    unfold startDownload
    cases p with
    | nil => rw [if_neg (by simp)]
    | cons b p => rw [if_pos ⟨hresumed, by simp⟩, hlookup]; rfl
  rw [hstart, stream_sent _ hanswer, List.length_append]

private theorem stream_whole {tmp : Location} {reply : Reply} {n : Nat}
    (hanswer : reply.Answers bytes n) (hstart : reply.partialContent = false ∨ n = 0) :
    (startDownload files tmp n reply).stream reply.body =
      (⟨bytes, bytes, n + bytes.length⟩, true) := by
  have hnew : startDownload files tmp n reply = ⟨[], [], n⟩ := by
    refine if_neg ?_
    rintro ⟨hresumed, hpos⟩
    rcases hstart with hwhole | rfl
    · rw [hresumed] at hwhole
      cases hwhole
    · omega
  have hsent : sentBytes reply.body = some bytes := by
    rw [show sentBytes reply.body = _ from hanswer]
    rcases hstart with hwhole | rfl
    · simp [hwhole]
    · simp
  rw [hnew, stream_sent _ hsent]
  simp

private theorem downloadChunk_iff (hsize : chunk.size = bytes.length)
    (hcid : chunk.cid = hash.cidStringFor bytes) (hserver : server.Answers chunk.cid bytes)
    (hleft : ∀ p, files.lookup (join chunksDir (chunk.cid ++ ".bin.tmp")) = some p →
      p <+: bytes) :
    ((∃ r, (downloadChunk hash chunksDir chunk true server files).1 = .ok r) ∧
      (downloadChunk hash chunksDir chunk true server files).2.lookup
        (join chunksDir (chunk.cid ++ ".bin")) = some bytes) ↔
      Resumable chunksDir chunk server files bytes := by
  set final := join chunksDir (chunk.cid ++ ".bin") with hfinal
  set tmp := join chunksDir (chunk.cid ++ ".bin.tmp") with htmp
  have hright : ∀ files' : Files,
      ((∃ r, (finishDownload hash chunk final tmp ⟨bytes, bytes, bytes.length⟩ true files').1 =
        .ok r) ∧ (finishDownload hash chunk final tmp ⟨bytes, bytes, bytes.length⟩ true
          files').2.lookup final = some bytes) := by
    intro files'
    rw [finishDownload_right hsize hcid]
    exact ⟨⟨_, rfl⟩, (lookup_renameFile files' tmp final bytes).1⟩
  unfold downloadChunk
  rw [← hfinal, ← htmp]
  dsimp only
  rcases resumePoint_prefix hsize hleft with ⟨p, hp, hne, hpoint⟩ | ⟨hzero, hwhole⟩
  · rw [hpoint]
    dsimp only
    obtain ⟨reply, hreply, hanswer⟩ := hserver p.length
    rw [hreply]
    dsimp only
    by_cases hresumed : reply.partialContent = true
    · rw [stream_resumed (hleft p hp) hp hanswer hresumed]
      refine iff_of_true (hright files) fun q hq => .inr (.inr ⟨reply, ?_, hresumed⟩)
      obtain rfl := Option.some.inj (hp.symm.trans hq)
      exact hreply
    · rw [stream_whole hanswer (.inl (by simpa using hresumed))]
      dsimp only
      by_cases hnil : p = []
      · subst hnil
        rw [List.length_nil, Nat.zero_add]
        refine iff_of_true (hright files) fun q hq => .inl ?_
        exact (Option.some.inj (hp.symm.trans hq)).symm
      · have hmiscounted : p.length + bytes.length ≠ chunk.size := by
          have hpos := List.length_pos_iff.mpr hnil
          omega
        refine iff_of_false ?_ fun h => ?_
        · rintro ⟨⟨r, hr⟩, -⟩
          exact finishDownload_miscounted hmiscounted r hr
        · rcases h p hp with h | h | ⟨reply', hreply', hresumed'⟩
          · exact hnil h
          · exact hne h
          · obtain rfl := Option.some.inj (hreply.symm.trans hreply')
            exact hresumed hresumed'
  · obtain ⟨reply, hreply, hanswer⟩ := hserver (resumePoint files tmp chunk true).1
    rw [hreply]
    dsimp only
    rw [stream_whole hanswer (.inr hzero), hzero, Nat.zero_add]
    exact iff_of_true (hright _) fun p hp => .inr (.inl (hwhole p hp))

/-- `fetch_one` gets the chunk, whichever way an honest server answers, just when it is in the cache
or what was left of it can be used. -/
theorem fetched_iff (hplain : '/' ∉ chunk.cid.toList) (hsize : chunk.size = bytes.length)
    (hcid : chunk.cid = hash.cidStringFor bytes) (hserver : server.Answers chunk.cid bytes)
    (hleft : ∀ p, files.lookup (join chunksDir (chunk.cid ++ ".bin.tmp")) = some p → p <+: bytes)
    (hcached : ∀ c, files.lookup (join chunksDir (chunk.cid ++ ".bin")) = some c →
      hash.cidStringFor c = chunk.cid → c = bytes) :
    Fetched hash chunksDir chunk server files bytes ↔
      InCache hash chunksDir chunk files ∨ Resumable chunksDir chunk server files bytes := by
  have hne : join chunksDir (chunk.cid ++ ".bin.tmp") ≠ join chunksDir (chunk.cid ++ ".bin") := by
    rw [join_bin hplain, join_tmp hplain]
    intro heq
    have hnames := List.append_cancel_left heq
    simp only [List.cons.injEq, and_true] at hnames
    exact tmp_ne_bin (chunk.cid ++ ".bin") chunk.cid (by
      rw [String.append_assoc]
      exact hnames)
  unfold Fetched fetchOne
  dsimp only
  cases hfinal : files.lookup (join chunksDir (chunk.cid ++ ".bin")) with
  | none =>
      have hnot : ¬ InCache hash chunksDir chunk files := by
        rintro ⟨c, hc, -⟩
        rw [hfinal] at hc
        cases hc
      rw [or_iff_right hnot]
      exact downloadChunk_iff hsize hcid hserver hleft
  | some c =>
      dsimp only
      by_cases hvalid : c.length = chunk.size ∧ hash.cidStringFor c = chunk.cid
      · rw [if_pos hvalid]
        obtain rfl := hcached c hfinal hvalid.2
        exact iff_of_true ⟨⟨_, rfl⟩, hfinal⟩ (.inl ⟨c, hfinal, hvalid⟩)
      · rw [if_neg hvalid]
        have hnot : ¬ InCache hash chunksDir chunk files := by
          rintro ⟨c', hc', hvalid'⟩
          obtain rfl := Option.some.inj (hfinal.symm.trans hc')
          exact hvalid hvalid'
        have hsame : (files.erase (join chunksDir (chunk.cid ++ ".bin"))).lookup
            (join chunksDir (chunk.cid ++ ".bin.tmp")) =
              files.lookup (join chunksDir (chunk.cid ++ ".bin.tmp")) :=
          AList.lookup_erase_ne hne
        rw [or_iff_right hnot, downloadChunk_iff hsize hcid hserver (by rwa [hsame])]
        unfold Resumable
        rw [hsame]

private def twoBytes : Chunk := ⟨spelledHash.cidStringFor [1, 2], 2⟩

private def halfLeft : Files :=
  (∅ : Files).insert (join ["chunks"] (twoBytes.cid ++ ".bin.tmp")) [1]

/-- A server that knows ranges, or one that always sends the whole chunk, a byte at a time. -/
private def twoByteServer (ranges : Bool) : ChunkServer where
  manifest := none
  chunk _ n :=
    some ⟨ranges, none, (if ranges then [1, 2].drop n else [1, 2]).map fun b => some [b]⟩

private theorem sentBytes_singles (bytes : Bytes) :
    sentBytes (bytes.map fun b => some [b]) = some bytes := by
  induction bytes with
  | nil => rfl
  | cons b bytes ih => simp [sentBytes, ih]

private theorem twoByteServer_answers (ranges : Bool) :
    (twoByteServer ranges).Answers twoBytes.cid [1, 2] := by
  intro n
  refine ⟨_, rfl, ?_⟩
  cases ranges with
  | false => exact sentBytes_singles [1, 2]
  | true => exact sentBytes_singles _

theorem fetched_iff_ranges :
    Fetched spelledHash ["chunks"] twoBytes (twoByteServer true) halfLeft [1, 2] ↔
      InCache spelledHash ["chunks"] twoBytes halfLeft ∨
        Resumable ["chunks"] twoBytes (twoByteServer true) halfLeft [1, 2] := by
  have hleft : halfLeft.lookup (join ["chunks"] (twoBytes.cid ++ ".bin.tmp")) = some [1] := by
    decide +kernel
  refine fetched_iff (by decide) rfl rfl (twoByteServer_answers true) ?_ ?_
  · intro p hp
    obtain rfl := Option.some.inj (hleft.symm.trans hp)
    exact ⟨[2], rfl⟩
  · intro c hc
    rw [show halfLeft.lookup (join ["chunks"] (twoBytes.cid ++ ".bin")) = none by
      decide +kernel] at hc
    cases hc

/-- Half of a chunk is there, and the server sends it whole: the fetch fails. -/
theorem whole_reply_refused :
    (twoByteServer false).Answers twoBytes.cid [1, 2] ∧
      halfLeft.lookup (join ["chunks"] (twoBytes.cid ++ ".bin.tmp")) = some [1] ∧
      (fetchOne spelledHash ["chunks"] twoBytes true (twoByteServer false) halfLeft).1 =
        .error (.sizeMismatch twoBytes.cid 2 3) ∧
      ¬ Fetched spelledHash ["chunks"] twoBytes (twoByteServer false) halfLeft [1, 2] := by
  have hfails : (fetchOne spelledHash ["chunks"] twoBytes true (twoByteServer false) halfLeft).1 =
      .error (.sizeMismatch twoBytes.cid 2 3) := by decide +kernel
  refine ⟨twoByteServer_answers false, by decide +kernel, hfails, ?_⟩
  rintro ⟨⟨r, hr⟩, -⟩
  rw [hfails] at hr
  cases hr

end IntelNav.ModelStore
