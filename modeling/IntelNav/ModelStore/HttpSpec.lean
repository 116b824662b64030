import IntelNav.ModelStore.Http

/-! What a fetch over HTTP leaves on disk, for every behaviour of the server. -/

set_option autoImplicit false
set_option relaxedAutoImplicit false

namespace IntelNav.ModelStore

open IntelNav.Disk

/-! The text of a CID. -/

/-- `[a-z2-7]` -/
def isBase32 (c : Char) : Bool := 'a' ≤ c && c ≤ 'z' || '2' ≤ c && c ≤ '7'

def Hashing.Base32 (hash : Hashing) : Prop :=
  ∀ bytes, 32 ≤ (hash.cidStringFor bytes).toList.length ∧
    (hash.cidStringFor bytes).toList.all isBase32

variable {hash : Hashing}

theorem Hashing.Base32.noSlash (h : hash.Base32) (bytes : Bytes) :
    '/' ∉ (hash.cidStringFor bytes).toList := by
  intro hslash
  have hletter := List.all_eq_true.mp (h bytes).2 '/' hslash
  revert hletter
  decide

theorem Hashing.Base32.plain (h : hash.Base32) (bytes : Bytes) :
    PlainName (hash.cidStringFor bytes) := by
  have hlen := (h bytes).1
  have hlong : ∀ t : String, t.toList.length < 32 → hash.cidStringFor bytes ≠ t := by
    intro t ht heq
    rw [heq] at hlen
    omega
  exact ⟨h.noSlash bytes, hlong _ (by decide), hlong _ (by decide), hlong _ (by decide)⟩

theorem join_bin {cid : String} (h : '/' ∉ cid.toList) (dir : Location) :
    join dir (cid ++ ".bin") = dir ++ [cid ++ ".bin"] :=
  join_plain (PlainName.extend h (by decide) (by decide)) dir

theorem join_tmp {cid : String} (h : '/' ∉ cid.toList) (dir : Location) :
    join dir (cid ++ ".bin.tmp") = dir ++ [cid ++ ".bin.tmp"] :=
  join_plain (PlainName.extend h (by decide) (by decide)) dir

theorem plain_chunks : PlainName "chunks" := ⟨by decide, by decide, by decide, by decide⟩

theorem plain_manifest : PlainName "manifest.json" := ⟨by decide, by decide, by decide, by decide⟩

theorem plain_pullSource : PlainName "pull_source.json" :=
  ⟨by decide, by decide, by decide, by decide⟩

theorem join_chunk {cid : String} (h : '/' ∉ cid.toList) (dir : Location) :
    join (join dir "chunks") (cid ++ ".bin") = chunkLocation dir cid := by
  rw [join_plain plain_chunks, join_bin h, List.append_assoc]
  rfl

def longHash : Hashing where
  sha256 bytes := bytes
  cidStringFromSha256 digest := String.ofList (List.replicate 32 'a' ++ digest.flatMap fun b =>
    [Char.ofNat (97 + b.toNat / 16), Char.ofNat (97 + b.toNat % 16)])

theorem longHash_length (bytes : Bytes) :
    (longHash.cidStringFor bytes).toList.length = 32 + 2 * bytes.length := by
  simp only [Hashing.cidStringFor, longHash, String.toList_ofList, List.length_append,
    List.length_replicate, List.length_flatMap, List.length_cons, List.length_nil]
  simp [Nat.mul_comm]

theorem longHash_base32 : longHash.Base32 := by
  have hletters : ∀ i : Fin 16, isBase32 (Char.ofNat (97 + i.val)) = true := by decide
  intro bytes
  simp only [Hashing.cidStringFor, longHash, String.toList_ofList]
  constructor
  · rw [List.length_append, List.length_replicate]
    omega
  · rw [List.all_append, Bool.and_eq_true]
    refine ⟨by decide, List.all_eq_true.mpr fun c hc => ?_⟩
    obtain ⟨b, -, hb⟩ := List.mem_flatMap.mp hc
    have hlt := b.toNat_lt
    simp only [List.mem_cons, List.not_mem_nil, or_false] at hb
    rcases hb with rfl | rfl
    · exact hletters ⟨b.toNat / 16, by omega⟩
    · exact hletters ⟨b.toNat % 16, by omega⟩

/-! One chunk. -/

private theorem stream_cons (d : Download) (b : Bytes) (body : List (Option Bytes)) :
    d.stream (some b :: body) =
      Download.stream ⟨d.file ++ b, d.hashed ++ b, d.total + b.length⟩ body := rfl

private theorem stream_hashed {d : Download} (h : d.hashed = d.file) (body : List (Option Bytes)) :
    (d.stream body).1.hashed = (d.stream body).1.file := by
  induction body generalizing d with
  | nil => exact h
  | cons piece body ih =>
      cases piece with
      | none => exact h
      | some b =>
          rw [stream_cons]
          apply ih
          rw [h]

private theorem stream_length_le {d : Download} (h : d.file.length ≤ d.total)
    (body : List (Option Bytes)) :
    (d.stream body).1.file.length ≤ (d.stream body).1.total := by
  induction body generalizing d with
  | nil => exact h
  | cons piece body ih =>
      cases piece with
      | none => exact h
      | some b =>
          rw [stream_cons]
          apply ih
          rw [List.length_append]
          exact Nat.add_le_add_right h b.length

variable {chunksDir : Location} {chunk : Chunk} {resume : Bool} {server : ChunkServer}
  {files : Files}

def ChunkPlace (chunksDir : Location) (cid : String) (p : Location) : Prop :=
  p = chunksDir ++ [cid ++ ".bin"] ∨ p = chunksDir ++ [cid ++ ".bin.tmp"]

variable (chunk resume files) in
private theorem agreeOff_resumePoint {touched : Location → Prop} {tmp : Location}
    (htmp : touched tmp) :
    AgreeOff touched files (resumePoint files tmp chunk resume).2 := by
  unfold resumePoint
  split
  · split_ifs
    · exact .refl _ _
    · exact agreeOff_erase htmp files
    · exact .refl _ _
  · exact .refl _ _

variable (files) in
private theorem startDownload_hashed (tmp : Location) (resumeFrom : Nat) (reply : Reply) :
    (startDownload files tmp resumeFrom reply).hashed =
      (startDownload files tmp resumeFrom reply).file := by
  unfold startDownload
  split_ifs <;> rfl

variable (files chunk resume) in
private theorem startDownload_length_le (tmp : Location) (reply : Reply) :
    let point := resumePoint files tmp chunk resume
    (startDownload point.2 tmp point.1 reply).file.length ≤
      (startDownload point.2 tmp point.1 reply).total := by
  intro point
  unfold startDownload
  split_ifs with hpartial
  · have hpoint : (point.2.lookup tmp).getD [] = [] ∨
        ((point.2.lookup tmp).getD []).length = point.1 := by
      simp only [point, resumePoint]
      cases htmp : files.lookup tmp with
      | none => simp [htmp]
      | some existing =>
          dsimp only
          split_ifs
          · exact .inr (by rw [htmp, Option.getD_some])
          · exact .inl (by rw [AList.lookup_erase, Option.getD_none])
          · exact absurd hpartial.2 (by simp [point, resumePoint, *])
    rcases hpoint with hnone | hlen
    · simp [hnone]
    · exact Nat.le_of_eq hlen
  · exact Nat.zero_le _

private theorem finishDownload_frame {touched : Location → Prop} {final tmp : Location}
    (hfinal : touched final) (htmp : touched tmp) (d : Download) (complete : Bool) :
    AgreeOff touched files (finishDownload hash chunk final tmp d complete files).2 := by
  have hwrite := agreeOff_insert htmp files d.file
  unfold finishDownload
  dsimp only
  split_ifs
  · exact hwrite.trans (agreeOff_erase htmp _)
  · exact hwrite.trans (agreeOff_erase htmp _)
  · exact hwrite.trans (agreeOff_renameFile htmp hfinal _)
  · exact hwrite

private theorem finishDownload_ok {final tmp : Location} {d : Download} {complete : Bool}
    {r : FetchOne} (hd : d.hashed = d.file)
    (h : (finishDownload hash chunk final tmp d complete files).1 = .ok r) :
    hash.cidStringFor d.file = chunk.cid ∧ d.total = chunk.size ∧
      (finishDownload hash chunk final tmp d complete files).2.lookup final = some d.file := by
  unfold finishDownload at h ⊢
  dsimp only at h ⊢
  split_ifs at h ⊢ with hcomplete hsize hcid
  rw [hd, not_not] at hcid
  exact ⟨hcid, not_not.mp hsize, (lookup_renameFile files tmp final d.file).1⟩

variable (hash chunksDir resume server files) in
private theorem downloadChunk_frame (hplain : '/' ∉ chunk.cid.toList) :
    AgreeOff (ChunkPlace chunksDir chunk.cid) files
      (downloadChunk hash chunksDir chunk resume server files).2 := by
  have hfinal : ChunkPlace chunksDir chunk.cid (chunksDir ++ [chunk.cid ++ ".bin"]) := .inl rfl
  have htmp : ChunkPlace chunksDir chunk.cid (chunksDir ++ [chunk.cid ++ ".bin.tmp"]) := .inr rfl
  have hpoint := agreeOff_resumePoint chunk resume files htmp
  unfold downloadChunk
  rw [join_bin hplain, join_tmp hplain]
  dsimp only
  split
  · exact hpoint
  · exact hpoint.trans (finishDownload_frame hfinal htmp _ _)

private theorem downloadChunk_ok {r : FetchOne}
    (h : (downloadChunk hash chunksDir chunk resume server files).1 = .ok r) :
    ∃ bytes, (downloadChunk hash chunksDir chunk resume server files).2.lookup
      (join chunksDir (chunk.cid ++ ".bin")) = some bytes ∧
      hash.cidStringFor bytes = chunk.cid ∧ bytes.length ≤ chunk.size := by
  unfold downloadChunk at h ⊢
  dsimp only at h ⊢
  split at h
  · cases h
  · rename_i reply _
    set tmp := join chunksDir (chunk.cid ++ ".bin.tmp")
    set point := resumePoint files tmp chunk resume
    have hhashed := stream_hashed (startDownload_hashed point.2 tmp point.1 reply) reply.body
    have hlen := stream_length_le (startDownload_length_le chunk resume files tmp reply) reply.body
    obtain ⟨hcid, hsize, hlookup⟩ := finishDownload_ok hhashed h
    exact ⟨_, hlookup, hcid, hlen.trans (Nat.le_of_eq hsize)⟩

private theorem fetchOne_ok {r : FetchOne}
    (h : (fetchOne hash chunksDir chunk resume server files).1 = .ok r) :
    ∃ bytes, (fetchOne hash chunksDir chunk resume server files).2.lookup
      (join chunksDir (chunk.cid ++ ".bin")) = some bytes ∧
      hash.cidStringFor bytes = chunk.cid ∧ bytes.length ≤ chunk.size := by
  unfold fetchOne at h ⊢
  dsimp only at h ⊢
  split at h
  · rename_i bytes hbytes
    split_ifs at h ⊢ with hcached
    · exact ⟨bytes, hbytes, hcached.2, Nat.le_of_eq hcached.1⟩
    · exact downloadChunk_ok h
  · exact downloadChunk_ok h

variable (hash chunksDir resume server files) in
theorem fetchOne_frame (hplain : '/' ∉ chunk.cid.toList) :
    AgreeOff (ChunkPlace chunksDir chunk.cid) files
      (fetchOne hash chunksDir chunk resume server files).2 := by
  have hfinal : ChunkPlace chunksDir chunk.cid (join chunksDir (chunk.cid ++ ".bin")) :=
    .inl (join_bin hplain chunksDir)
  unfold fetchOne
  dsimp only
  split
  · split_ifs
    · exact .refl _ _
    · exact (agreeOff_erase hfinal files).trans
        (downloadChunk_frame hash chunksDir resume server _ hplain)
  · exact downloadChunk_frame hash chunksDir resume server files hplain

private theorem fetchOne_plain (hbase : hash.Base32) {r : FetchOne}
    (h : (fetchOne hash chunksDir chunk resume server files).1 = .ok r) :
    '/' ∉ chunk.cid.toList := by
  obtain ⟨bytes, -, hcid, -⟩ := fetchOne_ok h
  rw [← hcid]
  exact hbase.noSlash bytes

/-! The chunks of a plan. -/

def Stored (hash : Hashing) (chunksDir : Location) (files : Files) (cid : String) : Prop :=
  ∃ bytes, files.lookup (join chunksDir (cid ++ ".bin")) = some bytes ∧
    hash.cidStringFor bytes = cid

/-- The chunk is stored under its CID, and is no longer than it should be. -/
def StoredUpTo (hash : Hashing) (chunksDir : Location) (files : Files) (chunk : Chunk) : Prop :=
  ∃ bytes, files.lookup (join chunksDir (chunk.cid ++ ".bin")) = some bytes ∧
    hash.cidStringFor bytes = chunk.cid ∧ bytes.length ≤ chunk.size

theorem StoredUpTo.stored (h : StoredUpTo hash chunksDir files chunk) :
    Stored hash chunksDir files chunk.cid := by
  obtain ⟨bytes, hlookup, hcid, -⟩ := h
  exact ⟨bytes, hlookup, hcid⟩

theorem ChunkPlace.unique {cid other : String} {p : Location} (h : ChunkPlace chunksDir cid p)
    (h' : ChunkPlace chunksDir other p) : cid = other := by
  have hne : ∀ a b : String, a ++ ".bin.tmp" ≠ b ++ ".bin" := fun a b heq =>
    tmp_ne_bin (a ++ ".bin") b (by rw [← heq, String.append_assoc]; rfl)
  rcases h with rfl | rfl
  all_goals
    rcases h' with hsame | hsame
    all_goals
      have hnames := List.append_cancel_left hsame
      simp only [List.cons.injEq, and_true] at hnames
  · exact (String.append_left_inj _).mp hnames
  · exact absurd hnames.symm (hne _ _)
  · exact absurd hnames (hne _ _)
  · exact (String.append_left_inj _).mp hnames

private theorem mapM_id_cons {r : Except HttpError FetchOne} {rs : List (Except HttpError FetchOne)}
    {fetches : List FetchOne} (h : (r :: rs).mapM id = .ok fetches) :
    ∃ f fs, r = .ok f ∧ rs.mapM id = .ok fs := by
  rw [List.mapM_cons] at h
  cases r with
  | error e => cases h
  | ok f =>
      change (rs.mapM id >>= fun fs => pure (f :: fs)) = .ok fetches at h
      cases hrs : rs.mapM id with
      | error e => rw [hrs] at h; cases h
      | ok fs => exact ⟨f, fs, rfl, rfl⟩

def ChunkPlaces (chunksDir : Location) (chunks : List Chunk) (p : Location) : Prop :=
  ∃ c ∈ chunks, ChunkPlace chunksDir c.cid p

variable {chunks : List Chunk}

theorem fetchEach_cons (c : Chunk) :
    fetchEach hash chunksDir resume server (c :: chunks) files =
      ((fetchOne hash chunksDir c resume server files).1 ::
          (fetchEach hash chunksDir resume server chunks
            (fetchOne hash chunksDir c resume server files).2).1,
        (fetchEach hash chunksDir resume server chunks
          (fetchOne hash chunksDir c resume server files).2).2) := rfl

variable (hash chunksDir resume server files) in
private theorem fetchEach_frame (hplain : ∀ c ∈ chunks, '/' ∉ c.cid.toList) :
    AgreeOff (ChunkPlaces chunksDir chunks) files
      (fetchEach hash chunksDir resume server chunks files).2 := by
  induction chunks generalizing files with
  | nil => exact .refl _ _
  | cons c chunks ih =>
      rw [fetchEach_cons]
      have hfirst := fetchOne_frame hash chunksDir resume server files (hplain c List.mem_cons_self)
      have hrest := ih (fetchOne hash chunksDir c resume server files).2
        fun d hd => hplain d (List.mem_cons_of_mem _ hd)
      exact (hfirst.mono fun p hp => ⟨c, List.mem_cons_self, hp⟩).trans
        (hrest.mono fun p ⟨d, hd, hp⟩ => ⟨d, List.mem_cons_of_mem _ hd, hp⟩)

private theorem fetchEach_plain (hbase : hash.Base32) {fetches : List FetchOne}
    (h : (fetchEach hash chunksDir resume server chunks files).1.mapM id = .ok fetches) :
    ∀ c ∈ chunks, '/' ∉ c.cid.toList := by
  induction chunks generalizing files fetches with
  | nil => exact nofun
  | cons c chunks ih =>
      rw [fetchEach_cons] at h
      obtain ⟨f, fs, hf, hfs⟩ := mapM_id_cons h
      intro d hd
      rcases List.mem_cons.mp hd with rfl | hd
      · exact fetchOne_plain hbase hf
      · exact ih hfs d hd

private theorem fetchEach_stored (hbase : hash.Base32) (hnodup : (chunks.map Chunk.cid).Nodup)
    {fetches : List FetchOne}
    (h : (fetchEach hash chunksDir resume server chunks files).1.mapM id = .ok fetches) :
    ∀ c ∈ chunks, StoredUpTo hash chunksDir
      (fetchEach hash chunksDir resume server chunks files).2 c := by
  have hplain := fetchEach_plain hbase h
  induction chunks generalizing files fetches with
  | nil => exact nofun
  | cons c chunks ih =>
      rw [fetchEach_cons] at h ⊢
      rw [List.map_cons, List.nodup_cons] at hnodup
      obtain ⟨f, fs, hf, hfs⟩ := mapM_id_cons h
      have hrest : ∀ d ∈ chunks, '/' ∉ d.cid.toList :=
        fun d hd => hplain d (List.mem_cons_of_mem _ hd)
      intro d hd
      rcases List.mem_cons.mp hd with rfl | hd
      · obtain ⟨bytes, hlookup, hcid⟩ := fetchOne_ok hf
        refine ⟨bytes, ?_, hcid⟩
        rw [← hlookup]
        apply fetchEach_frame _ _ _ _ _ hrest
        rintro ⟨e, he, hplace⟩
        have hown : ChunkPlace chunksDir d.cid (join chunksDir (d.cid ++ ".bin")) :=
          .inl (join_bin (hplain d List.mem_cons_self) chunksDir)
        exact hnodup.1 (List.mem_map.mpr ⟨e, he, hplace.unique hown⟩)
      · exact ih hnodup.2 hfs hrest d hd

theorem dedupInPlace_nodup (seen : List String) (chunks : List Chunk) :
    ((dedupInPlace seen chunks).map Chunk.cid).Nodup ∧
      ∀ c ∈ dedupInPlace seen chunks, c.cid ∉ seen := by
  induction chunks generalizing seen with
  | nil => exact ⟨List.nodup_nil, nofun⟩
  | cons c chunks ih =>
      unfold dedupInPlace
      split_ifs with hseen
      · exact ih seen
      · obtain ⟨hnodup, hfresh⟩ := ih (c.cid :: seen)
        constructor
        · rw [List.map_cons, List.nodup_cons]
          refine ⟨fun hmem => ?_, hnodup⟩
          obtain ⟨d, hd, heq⟩ := List.mem_map.mp hmem
          exact hfresh d hd (heq ▸ List.mem_cons_self)
        · intro d hd
          rcases List.mem_cons.mp hd with rfl | hd
          · exact hseen
          · exact fun h => hfresh d hd (List.mem_cons_of_mem _ h)

theorem dedupInPlace_sub (seen : List String) (chunks : List Chunk) :
    ∀ c ∈ dedupInPlace seen chunks, c ∈ chunks := by
  induction chunks generalizing seen with
  | nil => exact nofun
  | cons c chunks ih =>
      unfold dedupInPlace
      split_ifs with hseen
      · exact fun d hd => List.mem_cons_of_mem _ (ih seen d hd)
      · intro d hd
        rcases List.mem_cons.mp hd with rfl | hd
        · exact List.mem_cons_self
        · exact List.mem_cons_of_mem _ (ih _ d hd)

theorem dedupInPlace_complete (seen : List String) (chunks : List Chunk) :
    ∀ c ∈ chunks, c.cid ∈ seen ∨ ∃ d ∈ dedupInPlace seen chunks, d.cid = c.cid := by
  induction chunks generalizing seen with
  | nil => exact nofun
  | cons c chunks ih =>
      intro d hd
      unfold dedupInPlace
      split_ifs with hseen
      · rcases List.mem_cons.mp hd with rfl | hd
        · exact .inl hseen
        · exact ih seen d hd
      · rcases List.mem_cons.mp hd with rfl | hd
        · exact .inr ⟨d, List.mem_cons_self, rfl⟩
        · rcases ih (c.cid :: seen) d hd with hmem | ⟨e, he, heq⟩
          · rcases List.mem_cons.mp hmem with heq | hmem
            · exact .inr ⟨c, List.mem_cons_self, heq.symm⟩
            · exact .inl hmem
          · exact .inr ⟨e, List.mem_cons_of_mem _ he, heq⟩

/-- After a fetch that went well a chunk of each CID in the plan is stored and nothing else is
changed. -/
theorem fetchChunks_stored (hbase : hash.Base32) {fetched : FetchedManifest} {plan : FetchPlan}
    {opts : FetchOptions} {outcome : FetchOutcome} {files' : Files}
    (h : fetchChunks hash fetched plan opts server files = (.ok outcome, files')) :
    outcome.manifest = fetched.manifest ∧
      ∃ wanted, wantedChunks fetched.manifest plan = .ok wanted ∧
        (∀ c ∈ wanted, ∃ d ∈ wanted, d.cid = c.cid ∧
          StoredUpTo hash (join fetched.dir "chunks") files' d) ∧
        AgreeOff (ChunkPlaces (join fetched.dir "chunks") wanted) files files' := by
  unfold fetchChunks at h
  split at h
  · cases (Prod.mk.inj h).1
  · rename_i wanted hwanted
    dsimp only at h
    split at h
    · cases (Prod.mk.inj h).1
    · rename_i fetches hfetches
      obtain ⟨houtcome, hfiles⟩ := Prod.mk.inj h
      obtain rfl := Except.ok.inj houtcome
      have hstored := fetchEach_stored hbase (dedupInPlace_nodup [] wanted).1 hfetches
      have hframe := fetchEach_frame hash (join fetched.dir "chunks") opts.resume server files
        (fetchEach_plain hbase hfetches)
      rw [hfiles] at hstored hframe
      refine ⟨rfl, wanted, hwanted, fun c hc => ?_, ?_⟩
      · rcases dedupInPlace_complete [] wanted c hc with hmem | ⟨d, hd, heq⟩
        · cases hmem
        · exact ⟨d, dedupInPlace_sub [] wanted d hd, heq, hstored d hd⟩
      · exact hframe.mono fun p ⟨c, hc, hp⟩ => ⟨c, dedupInPlace_sub [] wanted c hc, hp⟩

/-- After a fetch that went well the chunks of the plan are stored and nothing else is changed. -/
theorem fetchChunks_ok (hbase : hash.Base32) {fetched : FetchedManifest} {plan : FetchPlan}
    {opts : FetchOptions} {outcome : FetchOutcome} {files' : Files}
    (h : fetchChunks hash fetched plan opts server files = (.ok outcome, files')) :
    outcome.manifest = fetched.manifest ∧
      ∃ wanted, wantedChunks fetched.manifest plan = .ok wanted ∧
        (∀ c ∈ wanted, Stored hash (join fetched.dir "chunks") files' c.cid) ∧
        AgreeOff (ChunkPlaces (join fetched.dir "chunks") wanted) files files' := by
  obtain ⟨hmanifest, wanted, hwanted, hstored, hframe⟩ := fetchChunks_stored hbase h
  refine ⟨hmanifest, wanted, hwanted, fun c hc => ?_, hframe⟩
  obtain ⟨d, -, heq, hd⟩ := hstored c hc
  exact heq ▸ hd.stored

theorem fetchChunks_frame {fetched : FetchedManifest} {plan : FetchPlan} {opts : FetchOptions}
    {r : Except HttpError FetchOutcome} {files' : Files}
    (h : fetchChunks hash fetched plan opts server files = (r, files'))
    (hplain : ∀ wanted, wantedChunks fetched.manifest plan = .ok wanted →
      ∀ c ∈ wanted, '/' ∉ c.cid.toList) :
    AgreeOff (fun p => ∃ name, p = join fetched.dir "chunks" ++ [name]) files files' := by
  unfold fetchChunks at h
  split at h
  · obtain ⟨-, rfl⟩ := Prod.mk.inj h
    exact .refl _ _
  · rename_i wanted hwanted
    have hframe := fetchEach_frame hash (join fetched.dir "chunks") opts.resume server files
      fun c hc => hplain wanted hwanted c (dedupInPlace_sub [] wanted c hc)
    have hfiles : (fetchEach hash (join fetched.dir "chunks") opts.resume server
        (dedupInPlace [] wanted) files).2 = files' := by
      dsimp only at h
      split at h
      · exact (Prod.mk.inj h).2
      · exact (Prod.mk.inj h).2
    rw [hfiles] at hframe
    refine hframe.mono fun p hp => ?_
    obtain ⟨c, -, rfl | rfl⟩ := hp
    · exact ⟨_, rfl⟩
    · exact ⟨_, rfl⟩

/-! The manifest. -/

def sentBytes : List (Option Bytes) → Option Bytes
  | [] => some []
  | none :: _ => none
  | some b :: body => (sentBytes body).map (b ++ ·)

def ChunkServer.sentManifest (server : ChunkServer) : Option Bytes :=
  server.manifest.bind fun reply => sentBytes reply.body

private theorem readCapped_ok {cap : Nat} {buf bytes : Bytes} {body : List (Option Bytes)}
    (h : readCapped cap buf body = .ok bytes) : (sentBytes body).map (buf ++ ·) = some bytes := by
  induction body generalizing buf with
  | nil =>
      obtain rfl := Except.ok.inj h
      simp [sentBytes]
  | cons piece body ih =>
      cases piece with
      | none => cases h
      | some b =>
          unfold readCapped at h
          split_ifs at h
          rw [← ih h, sentBytes, Option.map_map]
          congr 1
          funext rest
          exact (List.append_assoc _ _ _).symm

private theorem fetchManifestBytes_ok {cap : Nat} {bytes : Bytes}
    (h : fetchManifestBytes server.manifest cap = .ok bytes) :
    server.sentManifest = some bytes := by
  unfold fetchManifestBytes at h
  split at h
  · cases h
  · rename_i reply hreply
    have hread : readCapped cap [] reply.body = .ok bytes := by
      split at h
      · split_ifs at h
        exact h
      · exact h
    have hsent := readCapped_ok hread
    rw [ChunkServer.sentManifest, hreply, Option.bind_some]
    simpa using hsent

theorem fetchManifestOnly_ok {json : ManifestJson} {manifestUrl : String} {opts : FetchOptions}
    {fetched : FetchedManifest} {files' : Files}
    (h : fetchManifestOnly hash json manifestUrl opts server files = .ok (fetched, files')) :
    ∃ bytes manifest, server.sentManifest = some bytes ∧ json.fromJsonBytes bytes = some manifest ∧
      fetched = ⟨join opts.cacheRoot (hash.cidStringFor bytes), manifest, hash.cidStringFor bytes,
        manifestUrl⟩ ∧
      files' = files.insert (join fetched.dir "manifest.json") bytes := by
  unfold fetchManifestOnly at h
  cases hbytes : fetchManifestBytes server.manifest opts.maxManifestBytes with
  | error e => rw [hbytes] at h; cases h
  | ok bytes =>
      cases hmanifest : json.fromJsonBytes bytes with
      | none =>
          simp only [hbytes, bind, Except.bind, hmanifest] at h
          cases h
      | some manifest =>
          simp only [hbytes, bind, Except.bind, hmanifest] at h
          obtain ⟨rfl, rfl⟩ := Prod.mk.inj (Except.ok.inj h)
          exact ⟨bytes, manifest, fetchManifestBytes_ok hbytes, hmanifest, rfl, rfl⟩

/-! An honest server. -/

theorem stream_sent (d : Download) {body : List (Option Bytes)} {bytes : Bytes}
    (h : sentBytes body = some bytes) :
    d.stream body = (⟨d.file ++ bytes, d.hashed ++ bytes, d.total + bytes.length⟩, true) := by
  induction body generalizing d bytes with
  | nil =>
      obtain rfl := Option.some.inj h
      simp [Download.stream]
  | cons piece body ih =>
      cases piece with
      | none => cases h
      | some b =>
          obtain ⟨rest, hrest, rfl⟩ := Option.map_eq_some_iff.mp h
          rw [stream_cons, ih _ hrest]
          simp only [List.append_assoc, List.length_append, Nat.add_assoc]

def ChunkServer.Serves (hash : Hashing) (server : ChunkServer) (chunk : Chunk) : Prop :=
  ∃ reply bytes, server.chunk chunk.cid 0 = some reply ∧ sentBytes reply.body = some bytes ∧
    bytes.length = chunk.size ∧ hash.cidStringFor bytes = chunk.cid

variable (resume) in
private theorem fetchOne_served (hserves : server.Serves hash chunk)
    (hfinal : files.lookup (join chunksDir (chunk.cid ++ ".bin")) = none)
    (htmp : files.lookup (join chunksDir (chunk.cid ++ ".bin.tmp")) = none) :
    (fetchOne hash chunksDir chunk resume server files).1 = .ok ⟨chunk.size, false⟩ := by
  obtain ⟨reply, bytes, hreply, hsent, hsize, hcid⟩ := hserves
  have hpoint : resumePoint files (join chunksDir (chunk.cid ++ ".bin.tmp")) chunk resume =
      (0, files) := by
    simp only [resumePoint, htmp]
  have hstart : startDownload files (join chunksDir (chunk.cid ++ ".bin.tmp")) 0 reply =
      ⟨[], [], 0⟩ := if_neg (by simp)
  simp only [fetchOne, hfinal, downloadChunk, hpoint, hreply, hstart, stream_sent _ hsent]
  simp [finishDownload, hsize, hcid]

variable (resume) in
private theorem fetchEach_served (hplain : ∀ c ∈ chunks, '/' ∉ c.cid.toList)
    (hnodup : (chunks.map Chunk.cid).Nodup) (hserves : ∀ c ∈ chunks, server.Serves hash c)
    (hfresh : ∀ c ∈ chunks, ∀ p, ChunkPlace chunksDir c.cid p → files.lookup p = none) :
    (fetchEach hash chunksDir resume server chunks files).1.mapM id =
      .ok (chunks.map fun c => ⟨c.size, false⟩) := by
  induction chunks generalizing files with
  | nil => rfl
  | cons c chunks ih =>
      rw [List.map_cons, List.nodup_cons] at hnodup
      have hc := hplain c List.mem_cons_self
      have hfirst := fetchOne_served resume (hserves c List.mem_cons_self)
        (hfresh c List.mem_cons_self _ (.inl (join_bin hc chunksDir)))
        (hfresh c List.mem_cons_self _ (.inr (join_tmp hc chunksDir)))
      have hframe := fetchOne_frame hash chunksDir resume server files hc
      have hfresh' : ∀ d ∈ chunks, ∀ p, ChunkPlace chunksDir d.cid p →
          (fetchOne hash chunksDir c resume server files).2.lookup p = none := by
        intro d hd p hp
        rw [← hfresh d (List.mem_cons_of_mem _ hd) p hp]
        apply hframe
        intro hplace
        exact hnodup.1 (List.mem_map.mpr ⟨d, hd, hp.unique hplace⟩)
      have hrest := ih (fun d hd => hplain d (List.mem_cons_of_mem _ hd)) hnodup.2
        (fun d hd => hserves d (List.mem_cons_of_mem _ hd)) hfresh'
      rw [fetchEach_cons, List.mapM_cons, hfirst, List.map_cons]
      change ((fetchEach hash chunksDir resume server chunks _).1.mapM id >>= _) = _
      rw [hrest]
      rfl

theorem fetchChunks_served (hbase : hash.Base32) (fetched : FetchedManifest)
    (opts : FetchOptions) {plan : FetchPlan} {wanted : List Chunk}
    (hwanted : wantedChunks fetched.manifest plan = .ok wanted)
    (hserves : ∀ c ∈ wanted, server.Serves hash c)
    (hfresh : ∀ p, files.lookup (join fetched.dir "chunks" ++ p) = none) :
    ∃ outcome files', fetchChunks hash fetched plan opts server files = (.ok outcome, files') := by
  have hsub := dedupInPlace_sub [] wanted
  have hplain : ∀ c ∈ dedupInPlace [] wanted, '/' ∉ c.cid.toList := by
    intro c hc
    obtain ⟨reply, bytes, -, -, -, hcid⟩ := hserves c (hsub c hc)
    exact hcid ▸ hbase.noSlash bytes
  have hall := fetchEach_served opts.resume hplain (dedupInPlace_nodup [] wanted).1
    (fun c hc => hserves c (hsub c hc)) fun c hc p hp => by
      rcases hp with rfl | rfl
      · exact hfresh _
      · exact hfresh _
  unfold fetchChunks
  rw [hwanted]
  dsimp only
  rw [hall]
  exact ⟨_, _, rfl⟩

private theorem readCapped_sent {cap : Nat} {buf bytes : Bytes} {body : List (Option Bytes)}
    (h : sentBytes body = some bytes) (hcap : buf.length + bytes.length ≤ cap) :
    readCapped cap buf body = .ok (buf ++ bytes) := by
  induction body generalizing buf bytes with
  | nil =>
      obtain rfl := Option.some.inj h
      rw [List.append_nil]
      rfl
  | cons piece body ih =>
      cases piece with
      | none => cases h
      | some b =>
          obtain ⟨rest, hrest, rfl⟩ := Option.map_eq_some_iff.mp h
          rw [List.length_append] at hcap
          rw [readCapped, if_neg (by omega), ih hrest (by rw [List.length_append]; omega),
            List.append_assoc]

/-- The server sends the bytes as a manifest, and they are not too many. -/
def ChunkServer.Offers (server : ChunkServer) (cap : Nat) (bytes : Bytes) : Prop :=
  ∃ reply, server.manifest = some reply ∧ sentBytes reply.body = some bytes ∧
    bytes.length ≤ cap ∧ ∀ len ∈ reply.contentLength, len ≤ cap

theorem fetchManifestBytes_offered {cap : Nat} {bytes : Bytes} (h : server.Offers cap bytes) :
    fetchManifestBytes server.manifest cap = .ok bytes := by
  obtain ⟨reply, hreply, hsent, hcap, hlen⟩ := h
  have hread : readCapped cap [] reply.body = .ok bytes :=
    readCapped_sent hsent (by rw [List.length_nil]; omega)
  unfold fetchManifestBytes
  rw [hreply]
  cases hcontent : reply.contentLength with
  | none => simp only [hcontent, hread]
  | some len =>
      have hle := hlen len hcontent
      simp only [hcontent, hread]
      rw [if_neg (by omega)]

end IntelNav.ModelStore
