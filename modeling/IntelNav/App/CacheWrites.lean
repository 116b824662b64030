import IntelNav.App.SwarmContribute
import IntelNav.ModelStore.ChunkOutput
import IntelNav.ModelStore.FetchReplies
import IntelNav.ModelStore.FetchRuns

/-! Where the chunks of a manifest are written, over HTTP and from the swarm
(`crates/model-store/src/{http,p2p}.rs`). -/

set_option autoImplicit false
set_option relaxedAutoImplicit false

namespace IntelNav.App

open IntelNav.Disk IntelNav.ModelStore IntelNav.Transition

inductive P2pError
  | fetchingManifest (e : FetchError)
  | manifestBody (cap : Nat)
  | parsingManifest
  | manifestCid (actual expected : String)
  | plan (e : HttpError)
  | fetchingChunk (cid : String) (e : FetchError)
  deriving DecidableEq

inductive ChunkWrite
  | write (p : Location) (bytes : Bytes)
  | rename (src dst : Location)

def ChunkWrite.paths : ChunkWrite → List Location
  | .write p _ => [p]
  | .rename src dst => [src, dst]

def ChunkWrite.apply (files : Files) : ChunkWrite → Files
  | .write p bytes => files.insert p bytes
  | .rename src dst => renameFile files src dst

section P2p

variable (hash : Hashing)

/-- What the node answers to its fetches, by their number, their CID and the size expected. -/
abbrev NodeFetch := Nat → String → UInt64 → FetchReply

/-- The loop over the chunks, with the bytes downloaded and reused so far: a chunk at hand is used
again, any other one is fetched, written beside its place and moved there. -/
def fetchEachP2p (node : NodeFetch) (chunksDir : Location) :
    Nat → Nat × Nat → List Chunk → Files →
      Except P2pError (Nat × Nat) × List ChunkWrite × Files
  | _, counts, [], files => (.ok counts, [], files)
  | k, (downloaded, reused), c :: chunks, files =>
      let finalPath := join chunksDir (c.cid ++ ".bin")
      let atHand : Bool := match files.lookup finalPath with
        | some existing => existing.length = c.size && hash.cidStringFor existing = c.cid
        | none => false
      if atHand then
        fetchEachP2p node chunksDir k (downloaded, (reused + c.size) % 2 ^ 64) chunks files
      else
        match node k c.cid (UInt64.ofNat c.size) with
        | .error e => (.error (.fetchingChunk c.cid e), [], files)
        | .ok bytes =>
            let tmp := join chunksDir (c.cid ++ ".bin.tmp")
            let (r, writes, files) := fetchEachP2p node chunksDir (k + 1)
              ((downloaded + c.size) % 2 ^ 64, reused) chunks
              (renameFile (files.insert tmp bytes) tmp finalPath)
            (r, .write tmp bytes :: .rename tmp finalPath :: writes, files)

/-- `fetch_manifest_and_chunks_p2p_with`; beside its result the writes for chunks and the files. -/
def fetchManifestAndChunksP2pWith (json : ManifestJson) (node : NodeFetch) (manifestCid : String)
    (plan : FetchPlan) (cacheRoot : Location) (maxManifestBytes : Nat) (files : Files) :
    Except P2pError FetchOutcome × List ChunkWrite × Files :=
  match node 0 manifestCid anySize with
  | .error e => (.error (.fetchingManifest e), [], files)
  | .ok bytes =>
      if maxManifestBytes < bytes.length then (.error (.manifestBody maxManifestBytes), [], files)
      else
        match json.fromJsonBytes bytes with
        | none => (.error .parsingManifest, [], files)
        | some manifest =>
            let actual := hash.cidStringFor bytes
            if actual ≠ manifestCid then (.error (.manifestCid actual manifestCid), [], files)
            else
              let dir := join cacheRoot manifestCid
              let files := files.insert (join dir "manifest.json") bytes
              match wantedChunks manifest plan with
              | .error e => (.error (.plan e), [], files)
              | .ok wanted =>
                  let (r, writes, files) :=
                    fetchEachP2p hash node (join dir "chunks") 1 (0, 0) wanted files
                  (r.map fun counts => ⟨dir, manifest, manifestCid, counts.1, counts.2⟩, writes,
                    files)

end P2p

def ChildOf (dir p : Location) : Prop := ∃ name, p = dir ++ [name]

/-- The places that a move of `fetch_one` creates, removes or renames. -/
def fetchTouches (chunksDir : Location) (c : Chunk) : FetchStage → FetchMove → List Location
  | .corrupt, .next => [finalPath chunksDir c]
  | .discarding, .next => [tmpPath chunksDir c]
  | .creating _, .next => [tmpPath chunksDir c]
  | .dropping, .next => [tmpPath chunksDir c]
  | .moving, .next => [tmpPath chunksDir c, finalPath chunksDir c]
  | _, _ => []

section Inside

variable (hash : Hashing)

def StartsWanted (manifest : Manifest) (plan : FetchPlan) (e : FetchEvent) : Prop :=
  ∀ c resume, e = .start c resume →
    ∃ wanted, wantedChunks manifest plan = .ok wanted ∧ c ∈ dedupInPlace [] wanted

/-- Over HTTP: in every run, from any disk and with any replies, no move touches a place outside. -/
def HttpInside (manifest : Manifest) (plan : FetchPlan) (dir : Location) : Prop :=
  ∀ (start : ByteVolume) (events : List FetchEvent) (t : FetchRuns),
    Run (fetchStep hash (join dir "chunks")) (fun _ e => StartsWanted manifest plan e)
      ⟨start, []⟩ events t →
    ∀ run ∈ t.runs, ∀ move p, p ∈ fetchTouches (join dir "chunks") run.chunk run.stage move →
      ChildOf (join dir "chunks") p

end Inside

variable {hash : Hashing} {chunksDir dir : Location} {c : Chunk} {manifest : Manifest}
  {plan : FetchPlan}

/-- A file of a chunk is an entry of the directory exactly when the part of its CID before the last
slash leads back to the directory. -/
private theorem childOf_iff (chunksDir : Location) (cid : String) {ext : String}
    (hext : '/' ∉ ext.toList) (hlen : 3 ≤ ext.toList.length) :
    ChildOf chunksDir (join chunksDir (cid ++ ext)) ↔
      join chunksDir (upToSlash cid) = chunksDir := by
  rw [join_extend chunksDir cid hext hlen]
  constructor
  · rintro ⟨name, heq⟩
    exact (List.append_inj' heq rfl).1
  · intro hback
    exact ⟨_, by rw [hback]⟩

private theorem mem_fetchTouches {stage : FetchStage} {move : FetchMove} {p : Location}
    (h : p ∈ fetchTouches chunksDir c stage move) :
    p = finalPath chunksDir c ∨ p = tmpPath chunksDir c := by
  unfold fetchTouches at h
  split at h
  case h_5 =>
    rcases List.mem_cons.mp h with htmp | hfinal
    · exact .inr htmp
    · exact .inl (List.mem_singleton.mp hfinal)
  case h_1 => exact .inl (List.mem_singleton.mp h)
  case h_6 => cases h
  all_goals exact .inr (List.mem_singleton.mp h)

private theorem started_wanted {start : ByteVolume} {events : List FetchEvent} {t : FetchRuns}
    (hrun : Run (fetchStep hash chunksDir) (fun _ e => StartsWanted manifest plan e)
      ⟨start, []⟩ events t) :
    ∀ run ∈ t.runs, ∃ wanted, wantedChunks manifest plan = .ok wanted ∧
      run.chunk ∈ dedupInPlace [] wanted := by
  let wants (s : FetchRuns) : Prop := ∀ run ∈ s.runs, ∃ wanted,
    wantedChunks manifest plan = .ok wanted ∧ run.chunk ∈ dedupInPlace [] wanted
  have hstart : wants ⟨start, []⟩ := fun run hmem => absurd hmem List.not_mem_nil
  refine hrun.invariant hstart fun s e s' hs hok hstep => ?_
  cases e with
  | start c resume =>
      obtain rfl := Option.some.inj hstep
      intro run hmem
      rcases List.mem_append.mp hmem with hold | hnew
      · exact hs run hold
      · rw [List.mem_singleton.mp hnew]
        exact hok c resume rfl
  | act i move =>
      obtain ⟨old, hold, hstep⟩ := Option.bind_eq_some_iff.mp hstep
      obtain ⟨⟨v, stage⟩, -, hstep⟩ := Option.bind_eq_some_iff.mp hstep
      obtain rfl := Option.some.inj hstep
      intro run hmem
      rcases List.mem_or_eq_of_mem_set hmem with hrun | rfl
      · exact hs run hrun
      · exact hs old (List.mem_of_getElem? hold)

private theorem httpInside_iff (hash : Hashing) (manifest : Manifest) (plan : FetchPlan)
    (dir : Location) :
    HttpInside hash manifest plan dir ↔
      ∀ wanted, wantedChunks manifest plan = .ok wanted → ∀ c ∈ wanted,
        join (join dir "chunks") (upToSlash c.cid) = join dir "chunks" := by
  constructor
  · intro hinside wanted hwanted c hc
    obtain ⟨c', hc', hcid⟩ : ∃ c' ∈ dedupInPlace [] wanted, c'.cid = c.cid :=
      (dedupInPlace_complete [] wanted c hc).resolve_left List.not_mem_nil
    have hstart : StartsWanted manifest plan (.start c' true) := by
      intro d resume heq
      obtain ⟨rfl, -⟩ := FetchEvent.start.inj heq
      exact ⟨wanted, hwanted, hc'⟩
    have hexec : exec (fetchStep hash (join dir "chunks")) ⟨Volume.empty, []⟩
        [.start c' true, .act 0 .next, .act 0 .next, .act 0 (.reply false)] =
        some ⟨Volume.empty, [⟨c', true, .creating 0⟩]⟩ := rfl
    have hmoves : ∀ (x : FetchRuns), ∀ e ∈ [FetchEvent.start c' true, .act 0 .next, .act 0 .next,
        .act 0 (.reply false)], StartsWanted manifest plan e := by
      intro x e he
      rcases List.mem_cons.mp he with rfl | he
      · exact hstart
      · intro d resume heq
        rw [heq] at he
        simp at he
    have hrun := Run.of_exec (fun _ e => StartsWanted manifest plan e) hexec hmoves
    have htmp := hinside Volume.empty _ _ hrun _ List.mem_cons_self .next
      (tmpPath (join dir "chunks") c') List.mem_cons_self
    rw [← hcid]
    exact (childOf_iff _ _ (by decide) (by decide)).mp htmp
  · intro hback start events t hrun run hmem move p hp
    obtain ⟨wanted, hwanted, hc⟩ := started_wanted hrun run hmem
    have hfolder := hback wanted hwanted run.chunk (dedupInPlace_sub [] wanted _ hc)
    rcases mem_fetchTouches hp with rfl | rfl
    · exact (childOf_iff _ _ (by decide) (by decide)).mpr hfolder
    · exact (childOf_iff _ _ (by decide) (by decide)).mpr hfolder

section Swarm

variable (Peer : Type) {Query Request : Type} [DecidableEq Peer] [DecidableEq Query]
  [DecidableEq Request] (ids : Ids Query Request) (hash : Hashing)

/-- Bytes that the node gives out were a reply of its driver in some run. -/
def Answers (node : NodeFetch) : Prop :=
  ∀ k cid expectedSize bytes, node k cid expectedSize = .ok bytes →
    ∃ events, ∃ d : Driver Peer Query Request,
      Run (Driver.step hash ids) (fun _ _ => True) {} events d ∧
        ∃ waiter, .replied waiter cid (.ok bytes) ∈ d.history

def P2pInside (json : ManifestJson) (manifest : Manifest) (plan : FetchPlan) : Prop :=
  ∀ (node : NodeFetch) (manifestCid : String) (bytes : Bytes) (cacheRoot : Location)
    (maxManifestBytes : Nat) (files : Files),
    Answers Peer ids hash node → node 0 manifestCid anySize = .ok bytes →
    json.fromJsonBytes bytes = some manifest →
    ∀ w ∈ (fetchManifestAndChunksP2pWith hash json node manifestCid plan cacheRoot maxManifestBytes
      files).2.1, ∀ p ∈ w.paths, ChildOf (join (join cacheRoot manifestCid) "chunks") p

variable {Peer} {ids} {hash}

theorem Answers.cid {node : NodeFetch} (h : Answers Peer ids hash node) {k : Nat}
    {cid : String} {expectedSize : UInt64} {bytes : Bytes}
    (hnode : node k cid expectedSize = .ok bytes) : hash.cidStringFor bytes = cid := by
  obtain ⟨events, d, hrun, waiter, hreplied⟩ := h k cid expectedSize bytes hnode
  have hinOrder : Driver.InOrder hash d :=
    hrun.invariant Driver.InOrder.start fun x e y hx _ hs => hx.step hs
  obtain ⟨size, -, hverified⟩ := hinOrder.2.fitting _ _ _ (Driver.mem_served.mpr hreplied)
  exact (hverified bytes rfl).1

private theorem fetchEachP2p_inside (hbase : hash.Base32) {node : NodeFetch}
    (hnode : Answers Peer ids hash node) (chunksDir : Location) (chunks : List Chunk)
    (k : Nat) (counts : Nat × Nat) (files : Files) :
    ∀ w ∈ (fetchEachP2p hash node chunksDir k counts chunks files).2.1, ∀ p ∈ w.paths,
      ChildOf chunksDir p := by
  induction chunks generalizing k counts files with
  | nil => exact fun w hw => absurd hw List.not_mem_nil
  | cons c chunks ih =>
      rw [fetchEachP2p]
      dsimp only
      split_ifs
      · exact ih k _ files
      · split
        · exact fun w hw => absurd hw List.not_mem_nil
        · rename_i bytes hreply
          have hplain : '/' ∉ c.cid.toList := hnode.cid hreply ▸ hbase.noSlash bytes
          intro w hw p hp
          rw [join_bin hplain, join_tmp hplain] at hw
          rcases List.mem_cons.mp hw with rfl | hw
          · exact ⟨_, List.mem_singleton.mp hp⟩
          · rcases List.mem_cons.mp hw with rfl | hw
            · rcases List.mem_cons.mp hp with rfl | hp
              · exact ⟨_, rfl⟩
              · exact ⟨_, List.mem_singleton.mp hp⟩
            · exact ih _ _ _ w hw p hp

private theorem p2pInside (hbase : hash.Base32) (json : ManifestJson) (manifest : Manifest)
    (plan : FetchPlan) : P2pInside Peer ids hash json manifest plan := by
  intro node manifestCid bytes cacheRoot maxManifestBytes files hnode hbytes hparsed
  have hnone : ∀ w ∈ ([] : List ChunkWrite), ∀ p ∈ w.paths,
      ChildOf (join (join cacheRoot manifestCid) "chunks") p :=
    fun w hw => absurd hw List.not_mem_nil
  unfold fetchManifestAndChunksP2pWith
  rw [hbytes]
  dsimp only
  split_ifs
  · exact hnone
  · rw [hparsed]
    exact hnone
  · rw [hparsed]
    dsimp only
    split
    · exact hnone
    · exact fetchEachP2p_inside hbase hnode _ _ _ _ _

/-- The chunks of a manifest are written to its chunks directory and nowhere else, over HTTP and
from the swarm, exactly when each CID of the plan leads back to the directory up to its last
slash. -/
theorem cache_writes_inside_iff (Peer : Type) {Query Request : Type} [DecidableEq Peer]
    [DecidableEq Query] [DecidableEq Request] (ids : Ids Query Request) (hash : Hashing)
    (hbase : hash.Base32) (json : ManifestJson) (manifest : Manifest) (plan : FetchPlan)
    (dir : Location) :
    HttpInside hash manifest plan dir ∧ P2pInside Peer ids hash json manifest plan ↔
      ∀ wanted, wantedChunks manifest plan = .ok wanted → ∀ c ∈ wanted,
        join (join dir "chunks") (upToSlash c.cid) = join dir "chunks" := by
  rw [httpInside_iff]
  constructor
  · exact And.left
  · intro hback
    exact ⟨hback, p2pInside hbase json manifest plan⟩

end Swarm

/-- A model without bundles, whose header is said to be two directories up. -/
def straying : Manifest where
  format := "intelnav-model"
  version := manifestVersion
  name := none
  architecture := none
  nLayers := 0
  gguf := { ggufVersion := 3, alignment := 32, tensorDataOffset := 1, nKv := 0, nTensors := 0 }
  headerChunk := ⟨"../../authorized_keys", 1⟩
  bundles := []

theorem straying_writes_outside :
    prettyJson.fromJsonBytes (prettyJson.toJsonBytes straying) = some straying ∧
      ¬ HttpInside longHash straying .full ["cache", "m"] := by
  refine ⟨prettyJson_roundTrips straying, fun hinside => ?_⟩
  have hback := (httpInside_iff longHash straying .full ["cache", "m"]).mp hinside _ rfl
    straying.headerChunk List.mem_cons_self
  revert hback
  decide

theorem cache_writes_inside_oneLayer :
    HttpInside longHash oneLayer .full ["cache", "m"] ∧
      P2pInside Nat sampleIds longHash oneLayerJson oneLayer .full := by
  refine (cache_writes_inside_iff Nat sampleIds longHash longHash_base32 oneLayerJson oneLayer .full
    ["cache", "m"]).mpr fun wanted hwanted c hc => ?_
  obtain rfl := Except.ok.inj hwanted
  revert c
  decide +kernel

end IntelNav.App
