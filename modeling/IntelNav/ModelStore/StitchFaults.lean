import IntelNav.ModelStore.ManifestFaults

/-! Which manifests and caches make the stitcher panic, stage by stage. -/

set_option autoImplicit false
set_option relaxedAutoImplicit false

namespace IntelNav.ModelStore

open IntelNav.Disk IntelNav.Reading

section Calm

variable {ε α β : Type}

def Calm (r : Except (Stop ε) α) : Prop := r ≠ .error .panicked

private theorem calm_ok (a : α) : Calm (.ok a : Except (Stop ε) α) := fun h => by cases h

private theorem calm_pure (a : α) : Calm (pure a : Except (Stop ε) α) := calm_ok a

private theorem calm_failed (e : ε) : Calm (.error (.failed e) : Except (Stop ε) α) :=
    fun h => by cases h

private theorem calm_bind {r : Except (Stop ε) α} {f : α → Except (Stop ε) β} :
    Calm (r >>= f) ↔ Calm r ∧ ∀ a, r = .ok a → Calm (f a) := by
  unfold Calm
  rw [ne_eq, bind_error_iff]
  constructor
  · intro h
    refine ⟨fun hr => h (.inl hr), fun a ha hf => h (.inr ⟨a, ha, hf⟩)⟩
  · rintro ⟨hr, hf⟩ (h | ⟨a, ha, h⟩)
    · exact hr h
    · exact hf a ha h

private theorem calm_guard {c : Prop} [Decidable c] {e : ε} {r : Except (Stop ε) α} :
    Calm (if c then .error (.failed e) else r) ↔ (¬c → Calm r) := by
  split
  · rename_i hc
    exact iff_of_true (calm_failed e) fun h => absurd hc h
  · rename_i hc
    exact ⟨fun h _ => h, fun h => h hc⟩

private theorem calm_ofPanic {o : Option α} {f : α → Except (Stop ε) β} :
    Calm (ofPanic o >>= f) ↔ o ≠ none ∧ ∀ a, o = some a → Calm (f a) := by
  rw [calm_bind]
  cases o with
  | none => exact iff_of_false (fun h => h.1 rfl) fun h => h.1 rfl
  | some a =>
      simp only [ofPanic, calm_ok, Except.ok.injEq, Option.some.injEq, ne_eq, reduceCtorEq,
        not_false_eq_true, true_and]

private theorem calm_ofStitch {r : Except StitchError α} {f : α → Except (Stop StitchError) β} :
    Calm (ofStitch r >>= f) ↔ ∀ a, r = .ok a → Calm (f a) := by
  rw [calm_bind]
  cases r with
  | error e => exact iff_of_true ⟨calm_failed e, fun a h => by cases h⟩ fun a h => by cases h
  | ok a => simp only [ofStitch, calm_ok, Except.ok.injEq, true_and]

private theorem calm_ofReader {r : Except (Stop GgufError) α}
    {f : α → Except (Stop StitchError) β} :
    Calm (ofReader r >>= f) ↔ Calm r ∧ ∀ a, r = .ok a → Calm (f a) := by
  rw [calm_bind]
  rcases r with (e | -) | a
  · exact iff_of_true ⟨calm_failed _, fun a h => by cases h⟩
      ⟨calm_failed e, fun a h => by cases h⟩
  · exact iff_of_false (fun h => h.1 rfl) fun h => h.1 rfl
  · simp only [ofReader, calm_ok, Except.ok.injEq, true_and]

end Calm

/-- The members of the bundles of the range, in the order of the new file. -/
def selectedMembers (range : StitchRange) (bundles : List BundleEntry) :
    List (BundleEntry × BundleMember) :=
  bundles.flatMap fun b =>
    if (includesBundle range b.name).toOption = some true then b.members.map fun m => (b, m) else []

def Lies (p : BundleEntry × BundleMember) : Prop :=
  p.2.Fits ∧ p.2.offsetInBundle + p.2.size ≤ p.1.size

def keptOf (range : StitchRange) (mmaps : List (String × Bytes))
    (p : BundleEntry × BundleMember) : KeptTensor where
  newName := renameTensor p.2.name range.start
  dtypeCode := p.2.dtypeCode
  shape := p.2.shape
  bytes := ((((mmaps.lookup p.1.cid).getD []).drop p.2.offsetInBundle).take p.2.size)

variable {hash : Hashing} {files : Files} {cacheDir : Location} {range : StitchRange}

/-- The bundle's name says whether it is in the range, and if it is its chunk is there with its
size. -/
def BundleEntry.Opens (files : Files) (cacheDir : Location) (range : StitchRange)
    (b : BundleEntry) : Prop :=
  ∃ included, includesBundle range b.name = .ok included ∧
    (included = true → ∃ bytes, files.lookup (chunksDirResolve files cacheDir b.cid) = some bytes ∧
      bytes.length = b.size)

theorem openBundles_ok_iff {bundles : List BundleEntry} :
    (∃ mmaps, openBundles files cacheDir range bundles = .ok mmaps) ↔
      ∀ b ∈ bundles, b.Opens files cacheDir range := by
  constructor
  · rintro ⟨mmaps, h⟩ b hb
    obtain ⟨hopened, hfiles⟩ := openBundles_opened h
    obtain ⟨included, hincluded, hmapped⟩ := hopened b hb
    refine ⟨included, hincluded, fun ht => ?_⟩
    obtain ⟨bytes, hbytes, hlen⟩ := hmapped ht
    exact ⟨bytes, hfiles _ _ hbytes, hlen⟩
  · intro h
    induction bundles with
    | nil => exact ⟨[], rfl⟩
    | cons b bundles ih =>
        obtain ⟨⟨included, hincluded, hstored⟩, hrest⟩ := List.forall_mem_cons.mp h
        obtain ⟨mmaps, hmmaps⟩ := ih hrest
        unfold openBundles
        rw [hincluded]
        cases included with
        | false => exact ⟨mmaps, hmmaps⟩
        | true =>
            obtain ⟨bytes, hbytes, hlen⟩ := hstored rfl
            refine ⟨(b.cid, bytes) :: mmaps, ?_⟩
            simp only [bind, Except.bind, if_true, hbytes, hlen, hmmaps, ne_eq, not_true_eq_false,
              if_false]

private theorem readCachedChunk_ok_iff {cid : String} {bytes : Bytes} :
    readCachedChunk hash files cacheDir cid = .ok bytes ↔
      files.lookup (chunksDirResolve files cacheDir cid) = some bytes ∧
        hash.cidStringFor bytes = cid := by
  unfold readCachedChunk
  dsimp only
  cases files.lookup (chunksDirResolve files cacheDir cid) with
  | none => exact iff_of_false (fun h => by cases h) fun h => by cases h.1
  | some stored =>
      dsimp only
      rw [Option.some.injEq]
      split
      · rename_i hcid
        refine iff_of_false (fun h => by cases h) ?_
        rintro ⟨rfl, h⟩
        exact hcid h
      · rename_i hcid
        rw [Except.ok.injEq]
        refine ⟨?_, fun h => h.1⟩
        rintro rfl
        exact ⟨rfl, not_not.mp hcid⟩

section Keeping

variable {mmaps : List (String × Bytes)}

private theorem keepMember_eq {bundle : String} {p : BundleEntry × BundleMember} {mmap : Bytes}
    (hmmap : mmaps.lookup p.1.cid = some mmap) (hsize : mmap.length = p.1.size)
    (hfits : p.2.Fits) :
    keepMember checked range bundle mmap p.2 =
      if p.1.size < p.2.offsetInBundle + p.2.size then
        .error (.failed (.overruns p.2.name bundle p.2.offsetInBundle
          (p.2.offsetInBundle + p.2.size) p.1.size))
      else .ok (keptOf range mmaps p) := by
  have hadd : checked.add p.2.offsetInBundle p.2.size = some (p.2.offsetInBundle + p.2.size) :=
    if_pos hfits
  have horder : ¬p.2.offsetInBundle + p.2.size < p.2.offsetInBundle := by omega
  unfold keepMember keptOf
  rw [hmmap, Option.getD_some, ← hsize]
  simp only [hadd, ofPanic]
  change (if mmap.length < p.2.offsetInBundle + p.2.size then _ else _) = _
  rw [if_neg horder, Nat.add_sub_cancel_left]
  rfl

private theorem keepMember_panics {bundle : String} {p : BundleEntry × BundleMember} {mmap : Bytes}
    (hmmap : mmaps.lookup p.1.cid = some mmap) (hsize : mmap.length = p.1.size) :
    keepMember checked range bundle mmap p.2 = .error .panicked ↔ ¬p.2.Fits := by
  by_cases hfits : p.2.Fits
  · rw [keepMember_eq hmmap hsize hfits]
    refine iff_of_false ?_ (not_not.mpr hfits)
    split_ifs <;> exact fun h => by cases h
  · have hadd : checked.add p.2.offsetInBundle p.2.size = none := if_neg hfits
    unfold keepMember
    simp only [hadd, ofPanic]
    exact iff_of_true rfl hfits

private theorem keepMember_ok_iff {bundle : String} {p : BundleEntry × BundleMember} {mmap : Bytes}
    (hmmap : mmaps.lookup p.1.cid = some mmap) (hsize : mmap.length = p.1.size) :
    (∃ t, keepMember checked range bundle mmap p.2 = .ok t) ↔ Lies p := by
  unfold Lies
  by_cases hfits : p.2.Fits
  · rw [keepMember_eq hmmap hsize hfits]
    split
    · rename_i hover
      refine iff_of_false ?_ fun h => ?_
      · rintro ⟨t, h⟩
        cases h
      · omega
    · rename_i hlies
      exact iff_of_true ⟨_, rfl⟩ ⟨hfits, Nat.le_of_not_lt hlies⟩
  · refine iff_of_false ?_ fun h => hfits h.1
    rintro ⟨t, h⟩
    rw [(keepMember_panics hmmap hsize).mpr hfits] at h
    cases h

def keepSelected (range : StitchRange) (mmaps : List (String × Bytes))
    (p : BundleEntry × BundleMember) : Except (Stop StitchError) KeptTensor :=
  keepMember checked range p.1.name ((mmaps.lookup p.1.cid).getD []) p.2

private theorem keepTensors_eq {bundles : List BundleEntry}
    (h : ∀ b ∈ bundles, Opened range mmaps b) :
    keepTensors checked range mmaps bundles =
      (selectedMembers range bundles).mapM (keepSelected range mmaps) := by
  induction bundles with
  | nil => rfl
  | cons b bundles ih =>
      obtain ⟨⟨included, hincluded, hmapped⟩, hrest⟩ := List.forall_mem_cons.mp h
      unfold keepTensors selectedMembers
      rw [List.flatMap_cons, hincluded]
      cases included with
      | false => exact ih hrest
      | true =>
          obtain ⟨bytes, hbytes, -⟩ := hmapped rfl
          have hone : keepSelected range mmaps ∘ (fun m => (b, m)) =
              keepMember checked range b.name bytes := by
            funext m
            rw [Function.comp_apply, keepSelected, hbytes, Option.getD_some]
          have htrue : (Except.ok true : Except StitchError Bool).toOption = some true := rfl
          rw [if_pos htrue, List.mapM_append, List.mapM_map, hone, hbytes, ih hrest]
          rfl

/-- The members that are reached fit: those before them lie in their bundles. -/
def MembersFit (range : StitchRange) (bundles : List BundleEntry) : Prop :=
  ∀ p, Reached Lies (selectedMembers range bundles) p → p.2.Fits

private theorem mem_selectedMembers {bundles : List BundleEntry} {p : BundleEntry × BundleMember} :
    p ∈ selectedMembers range bundles ↔
      p.1 ∈ bundles ∧ includesBundle range p.1.name = .ok true ∧ p.2 ∈ p.1.members := by
  obtain ⟨b, m⟩ := p
  unfold selectedMembers
  rw [List.mem_flatMap]
  constructor
  · rintro ⟨c, hc, hmem⟩
    split at hmem
    · rename_i hincluded
      obtain ⟨m', hm', hpair⟩ := List.mem_map.mp hmem
      obtain ⟨rfl, rfl⟩ := Prod.mk.inj hpair
      refine ⟨hc, ?_, hm'⟩
      cases hname : includesBundle range c.name with
      | error e =>
          rw [hname] at hincluded
          cases hincluded
      | ok included =>
          rw [hname] at hincluded
          rw [show included = true from Option.some.inj hincluded]
    · cases hmem
  · rintro ⟨hb, hincluded, hm⟩
    refine ⟨b, hb, ?_⟩
    have htrue : (includesBundle range b.name).toOption = some true := by
      rw [hincluded]
      rfl
    rw [if_pos htrue]
    exact List.mem_map_of_mem hm

private theorem Opened.mapped {b : BundleEntry} (h : Opened range mmaps b)
    (hincluded : includesBundle range b.name = .ok true) :
    ∃ bytes, mmaps.lookup b.cid = some bytes ∧ bytes.length = b.size := by
  obtain ⟨included, hname, hmapped⟩ := h
  rw [hincluded] at hname
  exact hmapped (Except.ok.inj hname).symm

private theorem keepSelected_spec {bundles : List BundleEntry}
    (h : ∀ b ∈ bundles, Opened range mmaps b) {p : BundleEntry × BundleMember}
    (hp : p ∈ selectedMembers range bundles) :
    (keepSelected range mmaps p = .error .panicked ↔ ¬p.2.Fits) ∧
      ((∃ t, keepSelected range mmaps p = .ok t) ↔ Lies p) ∧
      (Lies p → keepSelected range mmaps p = .ok (keptOf range mmaps p) ∧
        (keptOf range mmaps p).bytes.length = p.2.size) := by
  obtain ⟨hb, hincluded, -⟩ := mem_selectedMembers.mp hp
  obtain ⟨bytes, hbytes, hsize⟩ := (h p.1 hb).mapped hincluded
  unfold keepSelected
  rw [hbytes, Option.getD_some]
  refine ⟨keepMember_panics hbytes hsize, keepMember_ok_iff hbytes hsize, fun hlies => ⟨?_, ?_⟩⟩
  · rw [keepMember_eq hbytes hsize hlies.1, if_neg (Nat.not_lt.mpr hlies.2)]
  · unfold keptOf
    rw [hbytes, Option.getD_some, List.length_take, List.length_drop, hsize]
    have hle := hlies.2
    omega

private theorem calm_keepTensors {bundles : List BundleEntry}
    (h : ∀ b ∈ bundles, Opened range mmaps b) :
    Calm (keepTensors checked range mmaps bundles) ↔ MembersFit range bundles := by
  have hreached : ∀ p, Reached (fun p => ∃ t, keepSelected range mmaps p = .ok t)
      (selectedMembers range bundles) p ↔ Reached Lies (selectedMembers range bundles) p :=
    fun p => reached_congr fun q hq => (keepSelected_spec h hq).2.1
  unfold Calm MembersFit
  rw [keepTensors_eq h, ne_eq, mapM_error_iff]
  constructor
  · intro hcalm p hp
    by_contra hfits
    exact hcalm ⟨p, (hreached p).mpr hp, (keepSelected_spec h hp.mem).1.mpr hfits⟩
  · rintro hfit ⟨p, hp, hpanic⟩
    exact (keepSelected_spec h hp.mem).1.mp hpanic (hfit p ((hreached p).mp hp))

private theorem keepTensors_ok_iff {bundles : List BundleEntry} {kept : List KeptTensor}
    (h : ∀ b ∈ bundles, Opened range mmaps b) :
    keepTensors checked range mmaps bundles = .ok kept ↔
      (∀ p ∈ selectedMembers range bundles, Lies p) ∧
        kept = (selectedMembers range bundles).map (keptOf range mmaps) := by
  rw [keepTensors_eq h]
  exact mapM_ok_iff (fun p hp => (keepSelected_spec h hp).2.1)
    fun p hp hlies => ((keepSelected_spec h hp).2.2 hlies).1

end Keeping

section NewHeader

/-- Where the cursor of the index stands after tensors of these sizes. -/
def cursorAfter (alignment : Nat) (cursor : Nat) (sizes : List Nat) : Nat :=
  sizes.foldl (fun c n => Header.alignedUp (c + n) alignment) cursor

private theorem le_cursorAfter (alignment cursor : Nat) (sizes : List Nat) :
    cursor ≤ cursorAfter alignment cursor sizes := by
  induction sizes generalizing cursor with
  | nil => exact Nat.le_refl _
  | cons n sizes ih =>
      have hstep := Header.le_alignedUp (cursor + n) alignment
      have hrest := ih (Header.alignedUp (cursor + n) alignment)
      exact le_trans (by omega) hrest

private theorem writeIndex_ne_none_iff {alignment cursor : Nat} (hpos : 0 < alignment)
    (hcursor : cursor < 2 ^ 64) {kept : List KeptTensor} :
    writeIndex checked alignment cursor kept ≠ none ↔
      cursorAfter alignment cursor (kept.map fun t => t.bytes.length) < 2 ^ 64 := by
  induction kept generalizing cursor with
  | nil => exact iff_of_true (Option.some_ne_none _) hcursor
  | cons t kept ih =>
      have hspec := Header.alignedUp_spec (Nat.ne_of_gt hpos) (cursor + t.bytes.length)
      have hrest := le_cursorAfter alignment
        (Header.alignedUp (cursor + t.bytes.length) alignment) (kept.map fun t => t.bytes.length)
      have hunfold : cursorAfter alignment cursor ((t :: kept).map fun t => t.bytes.length) =
          cursorAfter alignment (Header.alignedUp (cursor + t.bytes.length) alignment)
            (kept.map fun t => t.bytes.length) := rfl
      rw [hunfold, writeIndex]
      dsimp only
      by_cases hstop : cursor + t.bytes.length < 2 ^ 64
      · have hadd : checked.add cursor t.bytes.length = some (cursor + t.bytes.length) :=
          if_pos hstop
        by_cases hnext : Header.alignedUp (cursor + t.bytes.length) alignment < 2 ^ 64
        · rw [hadd, Option.bind_eq_bind, Option.bind_some, alignUp_checked hpos,
            if_pos (.inr hnext), Option.bind_eq_bind, Option.bind_some, ← ih hnext]
          cases writeIndex checked alignment
            (Header.alignedUp (cursor + t.bytes.length) alignment) kept with
          | none => exact Iff.rfl
          | some result => exact iff_of_true (Option.some_ne_none _) (Option.some_ne_none _)
        · have hdvd : ¬alignment ∣ cursor + t.bytes.length := by
            intro hdvd
            rw [Header.alignedUp_eq (Nat.ne_of_gt hpos), if_pos (Nat.mod_eq_zero_of_dvd hdvd)]
              at hnext
            exact hnext hstop
          rw [hadd, Option.bind_eq_bind, Option.bind_some, alignUp_checked hpos,
            if_neg (not_or.mpr ⟨hdvd, hnext⟩)]
          refine iff_of_false (fun h => h rfl) ?_
          omega
      · have hadd : checked.add cursor t.bytes.length = none := if_neg hstop
        rw [hadd]
        refine iff_of_false (fun h => h rfl) ?_
        omega

private theorem length_writeString (s : String) : (writeString s).length = 8 + (utf8 s).length := by
  simp [writeString, utf8]

private theorem length_writeKvU32 (key : String) (value : Nat) :
    (writeKvU32 key value).length = 16 + (utf8 key).length := by
  rw [writeKvU32, List.length_append, List.length_append, length_writeString, length_leBytes,
    length_leBytes]
  omega

private theorem length_word {ar : Arith} (e : Entry ar) :
    e.word.length = 12 + (utf8 e.key.text).length + e.value.word.length := by
  rw [Entry.word, Name.word, List.length_append, List.length_append, List.length_append,
    length_leBytes, length_leBytes]
  omega

theorem rewriteKvs_ne_none_iff {ar : Arith} {headerBytes : Bytes} {key : String} {pos : Nat}
    {es : List (Entry ar)} :
    rewriteKvs headerBytes key range pos (es.map Entry.kvEntry) ≠ none ↔
      es = [] ∨ pos + (es.flatMap Entry.word).length ≤ headerBytes.length := by
  induction es generalizing pos with
  | nil => exact iff_of_true (Option.some_ne_none _) (.inl rfl)
  | cons e es ih =>
      have hlen : ((e :: es).flatMap Entry.word).length =
          e.word.length + (es.flatMap Entry.word).length := by
        rw [List.flatMap_cons, List.length_append]
      have hentry : e.kvEntry.entry.length = e.word.length := rfl
      rw [List.map_cons, rewriteKvs, hlen]
      dsimp only
      rw [hentry]
      split
      · rename_i hover
        refine iff_of_false (fun h => h rfl) ?_
        rintro (h | h)
        · cases h
        · omega
      · rename_i hfits
        have hrest := @ih (pos + e.word.length)
        constructor
        · intro h
          right
          cases htail : rewriteKvs headerBytes key range (pos + e.word.length)
            (es.map Entry.kvEntry) with
          | none =>
              rw [htail] at h
              exact absurd rfl h
          | some tail =>
              rw [htail] at hrest
              rcases hrest.mp (Option.some_ne_none tail) with rfl | hle
              · rw [List.flatMap_nil, List.length_nil]
                omega
              · omega
        · rintro (h | hle)
          · cases h
          · obtain ⟨tail, htail⟩ := Option.ne_none_iff_exists'.mp (hrest.mpr (.inr (by omega)))
            rw [htail]
            exact Option.some_ne_none _

/-- They keep their lengths: the block count is a `u32` before and after. -/
private theorem length_rewriteKvs {ar : Arith} {headerBytes bytes : Bytes}
    {key : String} {pos : Nat} {es : List (Entry ar)}
    (h : rewriteKvs headerBytes key range pos (es.map Entry.kvEntry) = some bytes) :
    bytes.length = (es.flatMap Entry.word).length := by
  induction es generalizing pos bytes with
  | nil =>
      obtain rfl := Option.some.inj h
      rfl
  | cons e es ih =>
      rw [List.map_cons, rewriteKvs] at h
      dsimp only at h
      split at h
      · cases h
      · rename_i hfits
        have hfits : pos + e.word.length ≤ headerBytes.length := Nat.le_of_not_lt hfits
        obtain ⟨tail, htail, heq⟩ := Option.bind_eq_some_iff.mp h
        obtain rfl := Option.some.inj heq
        rw [List.flatMap_cons, List.length_append, List.length_append, ih htail]
        congr 1
        split
        · rename_i hcount
          rw [length_writeKvU32, length_word, Value.length_u32 hcount.2]
          have hkey : e.kvEntry.key = e.key.text := rfl
          rw [hkey]
          omega
        · have hentry : e.kvEntry.entry.length = e.word.length := rfl
          rw [List.length_take, List.length_drop, hentry]
          omega

def indexLength (name : String) (shape : List Int64) : Nat :=
  24 + (utf8 name).length + 8 * shape.length

theorem length_index {ar : Arith} {alignment cursor : Nat} {kept : List KeptTensor} {index : Bytes}
    {offsets : List Nat} (h : writeIndex ar alignment cursor kept = some (index, offsets)) :
    index.length = (kept.map fun t => indexLength t.newName t.shape).sum := by
  induction kept generalizing cursor index offsets with
  | nil =>
      obtain ⟨rfl, -⟩ := Prod.mk.inj (Option.some.inj h)
      rfl
  | cons t kept ih =>
      unfold writeIndex at h
      obtain ⟨stop, -, h⟩ := Option.bind_eq_some_iff.mp h
      obtain ⟨next, -, h⟩ := Option.bind_eq_some_iff.mp h
      obtain ⟨⟨rest, offsets'⟩, hrest, h⟩ := Option.bind_eq_some_iff.mp h
      obtain ⟨rfl, -⟩ := Prod.mk.inj (Option.some.inj h)
      have hshape : (t.shape.flatMap fun d => leBytes 8 d.toUInt64.toNat).length =
          8 * t.shape.length := by
        simp [List.length_flatMap, Nat.mul_comm]
      rw [List.length_append, ih hrest, List.map_cons, List.sum_cons]
      simp only [List.length_append, length_writeString, length_leBytes, hshape, indexLength]
      omega

/-- The bytes of the KV entries and the index of the new file, after its magic, version and
counts: the entries of the model, the two flags, and the members of the range. -/
def newHeaderLength (range : StitchRange) (manifest : Manifest) (hd : Header checked) : Nat :=
  hd.kvEnd + 61 +
    ((selectedMembers range manifest.bundles).map fun p =>
      indexLength (renameTensor p.2.name range.start) p.2.shape).sum

end NewHeader

def Manifest.stitchAlignment (manifest : Manifest) : Nat := max manifest.gguf.alignment 1

/-- The new file can be laid out: the entries of the model end in the header chunk, the offsets of
the tensors are words, and so is where their data begins. -/
structure LaysOut (range : StitchRange) (manifest : Manifest) (headerBytes : Bytes)
    (hd : Header checked) : Prop where
  entries : hd.entries = [] ∨ hd.kvEnd ≤ headerBytes.length
  offsets : cursorAfter manifest.stitchAlignment 0
    ((selectedMembers range manifest.bundles).map fun p => p.2.size) < 2 ^ 64
  header : manifest.stitchAlignment ∣ newHeaderLength range manifest hd ∨
    Header.alignedUp (newHeaderLength range manifest hd) manifest.stitchAlignment < 2 ^ 64

/-- The selected members can be cut out of their bundles and put into a new file. -/
structure SelectionFits (range : StitchRange) (manifest : Manifest) (headerBytes : Bytes)
    (hd : Header checked) : Prop where
  members : MembersFit range manifest.bundles
  layout : selectedMembers range manifest.bundles ≠ [] →
    (∀ p ∈ selectedMembers range manifest.bundles, Lies p) →
    LaysOut range manifest headerBytes hd

/-- The header chunk can be read again with its padding, and if it is a header and the bundles of
the range are there, what is selected fits. -/
structure ScratchFits (files : Files) (cacheDir : Location) (range : StitchRange)
    (manifest : Manifest) (headerBytes scratch : Bytes) : Prop where
  parses : ∀ s, HeaderOverlong s → ¬s <+: scratch
  selects : ∀ hd : Header checked, hd.word <+: scratch → manifest.architecture ≠ none →
    (∀ b ∈ manifest.bundles, b.Opens files cacheDir range) →
    SelectionFits range manifest headerBytes hd

/-- The condition under which a stitch does not panic: with a valid range and an intact header
chunk the padding is an `i64`, and a scratch file that can be mapped fits. -/
def StitchFits (hash : Hashing) (files : Files) (manifest : Manifest) (cacheDir : Location)
    (range : StitchRange) : Prop :=
  validateRange manifest range = .ok () →
    ∀ headerBytes, files.lookup (chunksDirResolve files cacheDir manifest.headerChunk.cid) =
        some headerBytes →
      hash.cidStringFor headerBytes = manifest.headerChunk.cid →
      headerBytes.length = manifest.headerChunk.size →
      -2 ^ 63 ≤ (Int64.ofNat manifest.gguf.tensorDataOffset).toInt - headerBytes.length ∧
        ∀ scratch, scratchGgufFromHeader headerBytes manifest.gguf.tensorDataOffset = scratch →
          scratch.length < 2 ^ 63 →
          ScratchFits files cacheDir range manifest headerBytes scratch

private theorem scratchPad_ne_none_iff {headerLen tensorDataOffset : Nat} :
    scratchPad headerLen tensorDataOffset ≠ none ↔
      -2 ^ 63 ≤ (Int64.ofNat tensorDataOffset).toInt - headerLen := by
  unfold scratchPad
  dsimp only
  split
  · rename_i h
    exact iff_of_true (Option.some_ne_none _) h
  · rename_i h
    exact iff_of_false (fun hn => hn rfl) h

private theorem Manifest.stitchAlignment_pos (manifest : Manifest) :
    0 < manifest.stitchAlignment := by
  rw [stitchAlignment]
  omega

private theorem length_newHeader (version n nKv : Nat) (newKv index : Bytes) (embed head : Bool) :
    (ggufMagic ++ leBytes 4 version ++ leBytes 8 n ++ leBytes 8 nKv ++
      (newKv ++ writeKvBool "intelnav.has_embed" embed ++
        writeKvBool "intelnav.has_head" head) ++ index).length =
      24 + newKv.length + 61 + index.length := by
  have hmagic : ggufMagic.length = 4 := rfl
  have hembed : (writeKvBool "intelnav.has_embed" embed).length = 31 := by
    cases embed <;> rfl
  have hhead : (writeKvBool "intelnav.has_head" head).length = 30 := by
    cases head <;> rfl
  simp only [List.length_append, length_leBytes, hmagic, hembed, hhead]
  omega

private theorem laysOut_iff {manifest : Manifest} {headerBytes : Bytes} {hd : Header checked}
    {key : String} {mmaps : List (String × Bytes)}
    (hopened : ∀ b ∈ manifest.bundles, Opened range mmaps b)
    (hlies : ∀ p ∈ selectedMembers range manifest.bundles, Lies p) {kept : List KeptTensor}
    (hkept : kept = (selectedMembers range manifest.bundles).map (keptOf range mmaps)) :
    LaysOut range manifest headerBytes hd ↔
      rewriteKvs headerBytes key range 24 (hd.entries.map Entry.kvEntry) ≠ none ∧
        ∀ newKv, rewriteKvs headerBytes key range 24 (hd.entries.map Entry.kvEntry) =
            some newKv →
          writeIndex checked manifest.stitchAlignment 0 kept ≠ none ∧
            ∀ result, writeIndex checked manifest.stitchAlignment 0 kept = some result →
              alignUp checked (24 + newKv.length + 61 + result.1.length)
                manifest.stitchAlignment ≠ none := by
  have hpos := manifest.stitchAlignment_pos
  have hkvEnd : 24 + (hd.entries.flatMap Entry.word).length = hd.kvEnd := by
    rw [Header.kvEnd, Header.length_counts]
    rfl
  have hsizes : kept.map (fun t => t.bytes.length) =
      (selectedMembers range manifest.bundles).map fun p => p.2.size := by
    rw [hkept, List.map_map]
    exact List.map_congr_left fun p hp =>
      ((keepSelected_spec hopened hp).2.2 (hlies p hp)).2
  have hentries : rewriteKvs headerBytes key range 24 (hd.entries.map Entry.kvEntry) ≠ none ↔
      hd.entries = [] ∨ hd.kvEnd ≤ headerBytes.length := by
    rw [rewriteKvs_ne_none_iff, hkvEnd]
  have hoffsets := @writeIndex_ne_none_iff _ 0 hpos (Nat.two_pow_pos 64) kept
  rw [hsizes] at hoffsets
  have hheader : ∀ newKv result,
      rewriteKvs headerBytes key range 24 (hd.entries.map Entry.kvEntry) = some newKv →
      writeIndex checked manifest.stitchAlignment 0 kept = some result →
      24 + newKv.length + 61 + result.1.length = newHeaderLength range manifest hd := by
    intro newKv result hnewKv hresult
    have hindex := length_index hresult
    rw [hkept, List.map_map] at hindex
    rw [length_rewriteKvs hnewKv, hkvEnd, hindex]
    rfl
  constructor
  · rintro ⟨hkvs, hcursor, hdata⟩
    refine ⟨hentries.mpr hkvs, fun newKv hnewKv => ⟨hoffsets.mpr hcursor, ?_⟩⟩
    intro result hresult
    rw [hheader newKv result hnewKv hresult, alignUp_checked hpos, if_pos hdata]
    exact Option.some_ne_none _
  · rintro ⟨hkvs, hrest⟩
    obtain ⟨newKv, hnewKv⟩ := Option.ne_none_iff_exists'.mp hkvs
    obtain ⟨hindex, hrest⟩ := hrest newKv hnewKv
    obtain ⟨result, hresult⟩ := Option.ne_none_iff_exists'.mp hindex
    have hdata := hrest result hresult
    rw [hheader newKv result hnewKv hresult, alignUp_checked hpos] at hdata
    refine ⟨hentries.mp hkvs, hoffsets.mp hindex, ?_⟩
    by_contra hno
    rw [if_neg hno] at hdata
    exact hdata rfl

private theorem calm_parse {scratch : Bytes} (h : scratch.length < 2 ^ 63) :
    Calm (Gguf.open checked ⟨scratch, h⟩) ↔ ∀ s, HeaderOverlong s → ¬s <+: scratch := by
  unfold Calm
  rw [ne_eq, open_panics_iff, not_exists]
  exact forall_congr' fun s => not_and

private theorem calm_selection {manifest : Manifest} {headerBytes : Bytes} {m : Mmap}
    {hd : Header checked} (hword : hd.word <+: m.bytes) {key : String}
    {mmaps : List (String × Bytes)}
    (hopened : ∀ b ∈ manifest.bundles, Opened range mmaps b) :
    Calm (do
      let kept ← keepTensors checked range mmaps manifest.bundles
      if kept = [] then .error (.failed .noTensors)
      else do
        let kvs ← ofReader ((hd.gguf m).kvEntries checked)
        let newKv ← ofPanic (rewriteKvs headerBytes key range 24 kvs)
        let alignment := max manifest.gguf.alignment 1
        let (index, offsets) ← ofPanic (writeIndex checked alignment 0 kept)
        let header := ggufMagic ++ leBytes 4 manifest.gguf.ggufVersion ++
          leBytes 8 kept.length ++ leBytes 8 (kvs.length + 2) ++
          (newKv ++ writeKvBool "intelnav.has_embed" range.includeEmbed ++
            writeKvBool "intelnav.has_head" range.includeHead) ++ index
        let dataOffset ← ofPanic (alignUp checked header.length alignment)
        (pure { header := header ++ List.replicate (dataOffset - header.length) 0, alignment
                dataOffset, tensors := kept.zip offsets, nKv := kvs.length + 2 } :
          Except (Stop StitchError) Assembly)) ↔
      SelectionFits range manifest headerBytes hd := by
  have hstages : ∀ kept, keepTensors checked range mmaps manifest.bundles = .ok kept →
      (kept = [] ↔ selectedMembers range manifest.bundles = []) := by
    intro kept hkept
    rw [((keepTensors_ok_iff hopened).mp hkept).2, List.map_eq_nil_iff]
  rw [calm_bind, calm_keepTensors hopened]
  simp only [calm_guard, kvEntries_eq words_checked hword, calm_ofReader, calm_ofPanic, calm_ok,
    calm_pure, Except.ok.injEq, forall_eq', true_and, length_newHeader, implies_true, and_true]
  constructor
  · rintro ⟨hmembers, hrest⟩
    refine ⟨hmembers, fun hne hlies => ?_⟩
    have hkept := (keepTensors_ok_iff hopened).mpr ⟨hlies, rfl⟩
    apply (@laysOut_iff _ _ _ _ key _ hopened hlies _ rfl).mpr
    exact hrest _ hkept fun hnil => hne ((hstages _ hkept).mp hnil)
  · rintro ⟨hmembers, hlayout⟩
    refine ⟨hmembers, fun kept hkept hne => ?_⟩
    obtain ⟨hlies, heq⟩ := (keepTensors_ok_iff hopened).mp hkept
    apply (laysOut_iff hopened hlies heq).mp
    exact hlayout (fun hnil => hne ((hstages kept hkept).mpr hnil)) hlies

private theorem calm_assemble {manifest : Manifest} {headerBytes : Bytes}
    (hvalid : validateRange manifest range = .ok ())
    (hread : readCachedChunk hash files cacheDir manifest.headerChunk.cid = .ok headerBytes)
    (hsize : headerBytes.length = manifest.headerChunk.size) :
    Calm (assemble checked hash files manifest cacheDir range) ↔
      ∀ scratch, scratchGgufFromHeader headerBytes manifest.gguf.tensorDataOffset = scratch →
          scratch.length < 2 ^ 63 →
          ScratchFits files cacheDir range manifest headerBytes scratch := by
  unfold assemble
  rw [calm_ofStitch, hvalid]
  simp only [Except.ok.injEq, forall_eq', calm_ofStitch, hread, calm_guard, hsize, ne_eq,
    not_true_eq_false, not_false_eq_true, forall_const]
  generalize scratchGgufFromHeader headerBytes manifest.gguf.tensorDataOffset = scratch
  split
  · rename_i hscratch
    rw [calm_ofReader, calm_parse hscratch]
    have hfits : (scratch.length < 2 ^ 63 →
        ScratchFits files cacheDir range manifest headerBytes scratch) ↔
        (∀ s, HeaderOverlong s → ¬s <+: scratch) ∧
          ∀ g, Gguf.open checked ⟨scratch, hscratch⟩ = .ok g →
            ∀ hd : Header checked, hd.word <+: scratch → manifest.architecture ≠ none →
            (∀ b ∈ manifest.bundles, b.Opens files cacheDir range) →
            SelectionFits range manifest headerBytes hd := by
      constructor
      · intro h
        exact ⟨(h hscratch).parses, fun _ _ => (h hscratch).selects⟩
      · rintro ⟨hparses, hselects⟩ -
        exact ⟨hparses, fun hd hword =>
          hselects _ ((open_iff words_checked).mpr ⟨hd, hword, rfl⟩) hd hword⟩
    rw [hfits]
    refine and_congr Iff.rfl (forall_congr' fun g => imp_congr_right fun hg => ?_)
    obtain ⟨hd, hword, rfl⟩ := (open_iff words_checked).mp hg
    have hunique : ∀ hd' : Header checked, hd'.word <+: scratch → hd' = hd :=
      fun hd' hword' => Header.unique hword' hword
    cases harch : manifest.architecture with
    | none =>
        refine iff_of_true (calm_failed _) ?_
        intro hd' _ h
        exact absurd rfl h
    | some kvArch =>
        simp only [calm_ofStitch]
        constructor
        · intro h hd' hword' _ hopens
          obtain ⟨mmaps, hmmaps⟩ := openBundles_ok_iff.mpr hopens
          rw [hunique hd' hword']
          exact (calm_selection hword (openBundles_opened hmmaps).1).mp (h mmaps hmmaps)
        · intro h mmaps hmmaps
          refine (calm_selection hword (openBundles_opened hmmaps).1).mpr ?_
          exact h hd hword (Option.some_ne_none kvArch) (openBundles_ok_iff.mp ⟨mmaps, hmmaps⟩)
  · rename_i hscratch
    exact iff_of_true (calm_failed _) fun h => absurd h hscratch

private theorem calm_assembleChecked {manifest : Manifest} :
    Calm (assembleChecked hash files manifest cacheDir range) ↔
      StitchFits hash files manifest cacheDir range := by
  unfold assembleChecked StitchFits
  rw [calm_ofStitch]
  constructor
  · intro h hvalid headerBytes hstored hcid hsize
    have hread := readCachedChunk_ok_iff.mpr ⟨hstored, hcid⟩
    have hrest := h () hvalid
    rw [calm_ofStitch] at hrest
    have hrest := calm_guard.mp (hrest headerBytes hread) (not_not.mpr hsize)
    obtain ⟨hpad, hrest⟩ := calm_ofPanic.mp hrest
    obtain ⟨pad, hpad'⟩ := Option.ne_none_iff_exists'.mp hpad
    exact ⟨scratchPad_ne_none_iff.mp hpad,
      (calm_assemble hvalid hread hsize).mp (hrest pad hpad')⟩
  · intro h u hvalid
    rw [calm_ofStitch]
    intro headerBytes hread
    rw [calm_guard]
    intro hsize
    have hsize := not_not.mp hsize
    obtain ⟨hstored, hcid⟩ := readCachedChunk_ok_iff.mp hread
    obtain ⟨hpad, hrest⟩ := h hvalid headerBytes hstored hcid hsize
    rw [calm_ofPanic]
    exact ⟨scratchPad_ne_none_iff.mpr hpad, fun pad _ =>
      (calm_assemble hvalid hread hsize).mpr hrest⟩

/-- The header fills the file up to the data, at an alignment, and the tensors are those of the
index. -/
structure Assembly.Laid (a : Assembly) : Prop where
  aligned : 0 < a.alignment ∧ a.alignment ∣ a.dataOffset
  header : a.header.length = a.dataOffset ∧ 0 < a.dataOffset
  tensors : ∃ kept index offsets, a.tensors = kept.zip offsets ∧
    writeIndex checked a.alignment 0 kept = some (index, offsets)

private theorem alignUp_laid {offset alignment padded : Nat} (hpos : 0 < alignment)
    (h : alignUp checked offset alignment = some padded) :
    alignment ∣ padded ∧ offset ≤ padded := by
  rw [alignUp_checked hpos] at h
  obtain ⟨-, h⟩ := Option.ite_none_right_eq_some.mp h
  obtain rfl := Option.some.inj h
  obtain ⟨hdvd, hle, -⟩ := Header.alignedUp_spec (Nat.ne_of_gt hpos) offset
  exact ⟨hdvd, hle⟩

private theorem assemble_laid {manifest : Manifest} {a : Assembly}
    (h : assemble checked hash files manifest cacheDir range = .ok a) : a.Laid := by
  obtain ⟨-, -, -, -, -, -, -, -, -, -, hindexed, rfl, haligned⟩ := assemble_ok h
  obtain ⟨hdvd, hle⟩ := alignUp_laid manifest.stitchAlignment_pos haligned
  refine ⟨⟨manifest.stitchAlignment_pos, hdvd⟩, ⟨?_, ?_⟩, _, _, _, rfl, hindexed⟩
  · rw [List.length_append, List.length_replicate]
    exact Nat.add_sub_of_le hle
  · rw [length_newHeader] at hle
    dsimp only
    omega

private theorem assembleChecked_laid {manifest : Manifest} {a : Assembly}
    (h : assembleChecked hash files manifest cacheDir range = .ok a) : a.Laid := by
  unfold assembleChecked at h
  obtain ⟨-, -, h⟩ := bind_ok h
  obtain ⟨headerBytes, -, h⟩ := bind_ok h
  split at h
  · cases h
  · obtain ⟨pad, -, h⟩ := bind_ok h
    exact assemble_laid h

private theorem writeAssembly_calm {a : Assembly} (h : a.Laid) :
    (writeAssembly a).2 ≠ .error .panicked := by
  obtain ⟨kept, index, offsets, htensors, hindex⟩ := h.tensors
  exact writeAssembly_total h.aligned.1 h.aligned.2 h.header.2 h.header.1 htensors hindex

/-- The stitcher panics only before it writes. -/
private theorem stitchSubsetChecked_iff {manifest : Manifest} {outPath : Location} :
    (stitchSubsetChecked hash manifest cacheDir range outPath files).1 ≠ .error .panicked ↔
      StitchFits hash files manifest cacheDir range := by
  rw [← calm_assembleChecked]
  unfold stitchSubsetChecked
  rcases hassemble : assembleChecked hash files manifest cacheDir range with (e | -) | a
  · exact iff_of_true (fun h => by cases h) (calm_failed e)
  · exact iff_of_false (fun h => h rfl) fun h => h rfl
  · refine iff_of_true ?_ (calm_ok a)
    have hcalm := writeAssembly_calm (assembleChecked_laid hassemble)
    dsimp only [ofStitcher]
    rcases hwrite : writeAssembly a with ⟨out, (e | -) | u⟩
    · exact fun h => by cases h
    · rw [hwrite] at hcalm
      exact absurd rfl hcalm
    · exact fun h => by cases h

def edgeManifest : Manifest :=
  { bareManifest with
    bundles := [⟨"blk.0", some (0, 1), spelledHash.cidStringFor [7], 1,
      [⟨"blk.0.w", [1], "I8", 24, 0, spelledHash.cidStringFor [7], 1, 2 ^ 64 - 1⟩]⟩] }

def edgeJson : ManifestJson := ⟨fun _ => [], fun _ => some edgeManifest⟩

def edgeFiles : Files := (bareVolume.put ["slices", "manifest.json"] []).files

/-- The end of the member overflows; where the sum wraps, the slice ends before it begins. -/
theorem edge_member_panics :
    (verifyChunks checked spelledHash edgeJson edgeFiles ["slices"] = .error .panicked ∧
      (stitchSubsetChecked spelledHash edgeManifest ["slices"] bareRange bareOut edgeFiles).1 =
        .error .panicked) ∧
    verifyChunks release spelledHash edgeJson edgeFiles ["slices"] = .error .panicked ∧
      (stitchSubset release spelledHash edgeManifest ["slices"] bareRange bareOut edgeFiles).1 =
        .error .panicked := by
  refine ⟨⟨?_, ?_⟩, ?_, ?_⟩
  · decide +kernel
  · decide +kernel
  · decide +kernel
  · decide +kernel

/-- For every manifest and every cache, neither the verifier nor the stitcher panics exactly where
what they reach of the manifest fits in words and in the header chunk. -/
theorem untrusted_manifest_faults (hash : Hashing) (json : ManifestJson) (dir : Location)
    (manifest : Manifest) (cacheDir : Location) (range : StitchRange) (outPath : Location)
    (files : Files) :
    verifyChunks checked hash json files dir ≠ .error .panicked ∧
        (stitchSubsetChecked hash manifest cacheDir range outPath files).1 ≠ .error .panicked ↔
      VerifyFits hash json files dir ∧ StitchFits hash files manifest cacheDir range :=
  and_congr verifyChunks_iff stitchSubsetChecked_iff

end IntelNav.ModelStore
