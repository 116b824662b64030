import IntelNav.ModelStore.CheckedStitch
import IntelNav.ModelStore.FullStitch
import IntelNav.Reading.Reached

/-! Which manifests and caches make the verifier or the stitcher panic. -/

set_option autoImplicit false
set_option relaxedAutoImplicit false

namespace IntelNav.ModelStore

open IntelNav.Disk IntelNav.Reading

variable {hash : Hashing} {files : Files}

def BundleMember.Fits (m : BundleMember) : Prop := m.offsetInBundle + m.size < 2 ^ 64

/-- The member lies in the bytes of its bundle, and its own bytes have its CID. -/
def BundleMember.Intact (hash : Hashing) (bytes : Bytes) (m : BundleMember) : Prop :=
  m.Fits ∧ m.offsetInBundle + m.size ≤ bytes.length ∧
    hash.cidStringFor ((bytes.drop m.offsetInBundle).take m.size) = m.cid

def BundleEntry.StoredAs (hash : Hashing) (files : Files) (dir : Location) (b : BundleEntry)
    (bytes : Bytes) : Prop :=
  files.lookup (chunkLocation dir b.cid) = some bytes ∧ bytes.length = b.size ∧
    hash.cidStringFor bytes = b.cid

def BundleEntry.Intact (hash : Hashing) (files : Files) (dir : Location) (b : BundleEntry) :
    Prop :=
  ∃ bytes, b.StoredAs hash files dir bytes ∧ ∀ m ∈ b.members, m.Intact hash bytes

/-- The members that are reached fit: those before them are intact, their bundle is stored, and the
bundles before it are intact. -/
def BundlesFit (hash : Hashing) (files : Files) (dir : Location) (bundles : List BundleEntry) :
    Prop :=
  ∀ b, Reached (BundleEntry.Intact hash files dir) bundles b →
    ∀ bytes, b.StoredAs hash files dir bytes →
      ∀ m, Reached (BundleMember.Intact hash bytes) b.members m → m.Fits

/-- They fit wherever there is a manifest and its header chunk is intact. -/
def VerifyFits (hash : Hashing) (json : ManifestJson) (files : Files) (dir : Location) : Prop :=
  ∀ bytes, files.lookup (dir ++ ["manifest.json"]) = some bytes →
    ∀ manifest, json.fromJsonBytes bytes = some manifest →
      ∀ header, files.lookup (chunkLocation dir manifest.headerChunk.cid) = some header →
        header.length = manifest.headerChunk.size →
        hash.cidStringFor header = manifest.headerChunk.cid →
        BundlesFit hash files dir manifest.bundles

private theorem verifyMember_eq {bundle : String} {bytes : Bytes} {m : BundleMember}
    (hfits : m.Fits) :
    verifyMember checked hash bundle bytes m =
      if bytes.length < m.offsetInBundle + m.size then
        .error (.failed (.overruns m.name bundle m.offsetInBundle (m.offsetInBundle + m.size)
          bytes.length))
      else if hash.cidStringFor ((bytes.drop m.offsetInBundle).take m.size) ≠ m.cid then
        .error (.failed (.memberHash m.name bundle m.cid
          (hash.cidStringFor ((bytes.drop m.offsetInBundle).take m.size))))
      else .ok () := by
  have hadd : checked.add m.offsetInBundle m.size = some (m.offsetInBundle + m.size) :=
    if_pos hfits
  have horder : ¬m.offsetInBundle + m.size < m.offsetInBundle := by omega
  unfold verifyMember
  simp only [hadd, ofPanic]
  change (if bytes.length < m.offsetInBundle + m.size then _ else _) = _
  rw [if_neg horder, Nat.add_sub_cancel_left]

private theorem verifyMember_overflows {bundle : String} {bytes : Bytes} {m : BundleMember}
    (h : ¬m.Fits) : verifyMember checked hash bundle bytes m = .error .panicked := by
  have hadd : checked.add m.offsetInBundle m.size = none := if_neg h
  unfold verifyMember
  simp only [hadd, ofPanic]
  rfl

private theorem verifyMember_panics {bundle : String} {bytes : Bytes} {m : BundleMember} :
    verifyMember checked hash bundle bytes m = .error .panicked ↔ ¬m.Fits := by
  by_cases hfits : m.Fits
  · rw [verifyMember_eq hfits]
    refine iff_of_false ?_ (not_not.mpr hfits)
    split_ifs <;> exact fun h => by cases h
  · exact iff_of_true (verifyMember_overflows hfits) hfits

private theorem verifyMember_ok_iff {bundle : String} {bytes : Bytes} {m : BundleMember} :
    verifyMember checked hash bundle bytes m = .ok () ↔ m.Intact hash bytes := by
  unfold BundleMember.Intact
  by_cases hfits : m.Fits
  · rw [verifyMember_eq hfits]
    constructor
    · intro h
      split_ifs at h with hlen hcid
      exact ⟨hfits, Nat.le_of_not_lt hlen, not_not.mp hcid⟩
    · rintro ⟨-, hlen, hcid⟩
      rw [if_neg (Nat.not_lt.mpr hlen), if_neg (not_not.mpr hcid)]
  · rw [verifyMember_overflows hfits]
    exact iff_of_false (fun h => by cases h) fun h => hfits h.1

private theorem readChunk_ok {dir : Location} {cid : String} {bytes : Bytes} :
    readChunk files dir cid = .ok bytes ↔ files.lookup (chunkLocation dir cid) = some bytes := by
  unfold readChunk
  cases files.lookup (chunkLocation dir cid) with
  | none => exact iff_of_false (fun h => by cases h) fun h => by cases h
  | some stored =>
      constructor
      · intro h
        exact congrArg some (Except.ok.inj h)
      · intro h
        exact congrArg Except.ok (Option.some.inj h)

private theorem readChunk_panics {dir : Location} {cid : String} :
    readChunk files dir cid ≠ .error .panicked := by
  unfold readChunk
  cases files.lookup (chunkLocation dir cid) with
  | none => exact fun h => by cases h
  | some stored => exact fun h => by cases h

private theorem verifyBundle_eq {dir : Location} {b : BundleEntry}
    {r : Except (Stop VerifyError) Unit} (hr : r = .ok () ∨ r = .error .panicked) :
    verifyBundle checked hash files dir b = r ↔
      ∃ bytes, b.StoredAs hash files dir bytes ∧
        b.members.forM (verifyMember checked hash b.name bytes) = r := by
  have hfailed : ∀ e, (.error (.failed e) : Except (Stop VerifyError) Unit) ≠ r := by
    rintro e rfl
    rcases hr with h | h <;> cases h
  unfold verifyBundle
  cases hread : readChunk files dir b.cid with
  | error e =>
      have hnone : files.lookup (chunkLocation dir b.cid) = none := by
        cases hlookup : files.lookup (chunkLocation dir b.cid) with
        | none => rfl
        | some bytes =>
            rw [readChunk_ok.mpr hlookup] at hread
            cases hread
      cases e with
      | panicked => exact absurd hread readChunk_panics
      | failed e =>
          refine iff_of_false (hfailed e) ?_
          rintro ⟨bytes, ⟨hlookup, -⟩, -⟩
          rw [hnone] at hlookup
          cases hlookup
  | ok bytes =>
      have hlookup := readChunk_ok.mp hread
      change (if bytes.length ≠ b.size then _ else _) = r ↔ _
      constructor
      · intro h
        split at h
        · exact absurd h (hfailed _)
        · rename_i hsize
          split at h
          · exact absurd h (hfailed _)
          · rename_i hcid
            exact ⟨bytes, ⟨hlookup, not_not.mp hsize, not_not.mp hcid⟩, h⟩
      · rintro ⟨bytes', ⟨hlookup', hsize, hcid⟩, h⟩
        obtain rfl : bytes = bytes' := Option.some.inj (hlookup.symm.trans hlookup')
        rw [if_neg (not_not.mpr hsize), if_neg (not_not.mpr hcid)]
        exact h

private theorem verifyBundle_ok_iff {dir : Location} {b : BundleEntry} :
    verifyBundle checked hash files dir b = .ok () ↔ b.Intact hash files dir := by
  rw [verifyBundle_eq (.inl rfl)]
  simp only [forM_ok_iff, verifyMember_ok_iff]
  rfl

private theorem verifyBundle_panics {dir : Location} {b : BundleEntry} :
    verifyBundle checked hash files dir b = .error .panicked ↔
      ∃ bytes, b.StoredAs hash files dir bytes ∧
        ∃ m, Reached (BundleMember.Intact hash bytes) b.members m ∧ ¬m.Fits := by
  rw [verifyBundle_eq (.inr rfl)]
  simp only [forM_error_iff, verifyMember_ok_iff, verifyMember_panics]

private theorem verifyBundles_iff {dir : Location} {bundles : List BundleEntry} :
    bundles.forM (verifyBundle checked hash files dir) ≠ .error .panicked ↔
      BundlesFit hash files dir bundles := by
  rw [ne_eq, forM_error_iff]
  simp only [verifyBundle_ok_iff, verifyBundle_panics]
  constructor
  · intro h b hb bytes hstored m hm
    by_contra hfits
    exact h ⟨b, hb, bytes, hstored, m, hm, hfits⟩
  · rintro h ⟨b, hb, bytes, hstored, m, hm, hfits⟩
    exact hfits (h b hb bytes hstored m hm)

theorem verifyChunks_iff {json : ManifestJson} {dir : Location} :
    verifyChunks checked hash json files dir ≠ .error .panicked ↔
      VerifyFits hash json files dir := by
  unfold verifyChunks VerifyFits
  cases hstored : files.lookup (dir ++ ["manifest.json"]) with
  | none => exact iff_of_true (fun h => by cases h) fun _ h => by cases h
  | some bytes =>
      simp only [Option.some.injEq, forall_eq']
      cases hparse : json.fromJsonBytes bytes with
      | none => exact iff_of_true (fun h => by cases h) fun _ h => by cases h
      | some manifest =>
          simp only [Option.some.injEq, forall_eq']
          cases hheader : files.lookup (chunkLocation dir manifest.headerChunk.cid) with
          | none =>
              refine iff_of_true ?_ fun _ h => by cases h
              simp only [readChunk, hheader]
              exact fun h => by cases h
          | some header =>
              simp only [readChunk_ok.mpr hheader, Option.some.injEq, forall_eq']
              change (if header.length ≠ manifest.headerChunk.size then _ else _) ≠ _ ↔ _
              by_cases hsize : header.length = manifest.headerChunk.size
              · rw [if_neg (not_not.mpr hsize)]
                by_cases hcid : hash.cidStringFor header = manifest.headerChunk.cid
                · rw [if_neg (not_not.mpr hcid), verifyBundles_iff]
                  exact ⟨fun h _ _ => h, fun h => h hsize hcid⟩
                · rw [if_pos hcid]
                  exact iff_of_true (fun h => by cases h) fun _ h => absurd h hcid
              · rw [if_pos hsize]
                exact iff_of_true (fun h => by cases h) fun h => absurd h hsize

end IntelNav.ModelStore
