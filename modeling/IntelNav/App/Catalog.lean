import IntelNav.Disk.Paths
import IntelNav.Disk.Volume
import IntelNav.ModelStore.Chunker
import IntelNav.Stream.Lines

/-! The models of the catalog (`crates/app/src/catalog.rs`), the files of each in a models
directory, and the tokenizer that is found for one. -/

set_option autoImplicit false
set_option relaxedAutoImplicit false

namespace IntelNav.App.Downloads

open IntelNav.Disk IntelNav.ModelStore

/-- `trim_end_matches`, with as many rounds as there are letters. -/
def trimEndMatches (suffix : List Char) : Nat → List Char → List Char
  | 0, s => s
  | n + 1, s =>
      if suffix ≠ [] ∧ suffix.isSuffixOf s then
        trimEndMatches suffix n (s.take (s.length - suffix.length))
      else s

/-- The stem of a file name, and its extension if it has one: what is behind the last dot, unless
that dot is the first letter. -/
def splitExtension (name : List Char) : List Char × Option (List Char) :=
  let ext := (name.reverse.takeWhile (· ≠ '.')).reverse
  let before := name.take (name.length - ext.length - 1)
  if ext.length = name.length ∨ before = [] then (name, none) else (before, some ext)

def fileStem (name : String) : String := String.ofList (splitExtension name.toList).1

/-- The name with `.part` behind its extension, where a file is written before it is renamed. -/
def partName (name : String) : String :=
  let (stem, ext) := splitExtension name.toList
  let s := ext.getD []
  String.ofList (stem ++ '.' :: (if s = [] then s else s ++ ['.']) ++ "part".toList)

inductive Fit
  | fits
  | tight
  | tooBig
  deriving DecidableEq

/-- `saturating_mul` on `u64`. -/
def saturatingMul (a b : Nat) : Nat := min (a * b) (2 ^ 64 - 1)

/-- How an amount of memory fits what is free, with three tenths to spare or without. -/
def fitFor (ram free : Nat) : Fit :=
  if saturatingMul ram 13 / 10 ≤ free then .fits else if ram ≤ free then .tight else .tooBig

structure HubEntry where
  displayName : String
  sizeBytes : Nat
  ramBytesMin : Nat
  hfRepo : String
  ggufFile : String
  tokenizerRepo : String
  tokenizerFile : String
  blockCount : UInt16
  defaultSplits : List (UInt16 × UInt16)
  deriving DecidableEq

namespace HubEntry

variable (entry : HubEntry)

def modelCid (cidText : String → String) : String :=
  String.ofList ((cidText s!"hf|{entry.hfRepo}|{entry.ggufFile}").toList.take 22)

/-- The splits to ask the swarm for; one for the whole model where none are declared. -/
def swarmRanges : List (UInt16 × UInt16) :=
  if entry.defaultSplits = [] then [(0, entry.blockCount)] else entry.defaultSplits

def ggufUrl : String :=
  s!"https://huggingface.co/{entry.hfRepo}/resolve/main/{entry.ggufFile}?download=true"

def tokenizerUrl : String :=
  s!"https://huggingface.co/{entry.tokenizerRepo}/resolve/main/{entry.tokenizerFile}?download=true"

end HubEntry

def gb : Nat := 1024 * 1024 * 1024

def mb : Nat := 1024 * 1024

def splits24 : List (UInt16 × UInt16) := [(0, 6), (6, 12), (12, 18), (18, 24)]

def splits36 : List (UInt16 × UInt16) := [(0, 9), (9, 18), (18, 27), (27, 36)]

def splits28 : List (UInt16 × UInt16) := [(0, 7), (7, 14), (14, 21), (21, 28)]

def smallest : HubEntry where
  displayName := "Qwen 2.5 · 0.5B · Instruct"
  sizeBytes := 398 * mb
  ramBytesMin := 700 * mb
  hfRepo := "Qwen/Qwen2.5-0.5B-Instruct-GGUF"
  ggufFile := "qwen2.5-0.5b-instruct-q4_k_m.gguf"
  tokenizerRepo := "Qwen/Qwen2.5-0.5B-Instruct"
  tokenizerFile := "tokenizer.json"
  blockCount := 24
  defaultSplits := splits24

def catalog : List HubEntry :=
  [smallest,
    { displayName := "Qwen 2.5 · 1.5B · Instruct"
      sizeBytes := 986 * mb
      ramBytesMin := 2 * gb
      hfRepo := "Qwen/Qwen2.5-1.5B-Instruct-GGUF"
      ggufFile := "qwen2.5-1.5b-instruct-q4_k_m.gguf"
      tokenizerRepo := "Qwen/Qwen2.5-1.5B-Instruct"
      tokenizerFile := "tokenizer.json"
      blockCount := 28
      defaultSplits := splits28 },
    { displayName := "Qwen 2.5 · 3B · Instruct"
      sizeBytes := 2 * gb
      ramBytesMin := 4 * gb
      hfRepo := "Qwen/Qwen2.5-3B-Instruct-GGUF"
      ggufFile := "qwen2.5-3b-instruct-q4_k_m.gguf"
      tokenizerRepo := "Qwen/Qwen2.5-3B-Instruct"
      tokenizerFile := "tokenizer.json"
      blockCount := 36
      defaultSplits := splits36 },
    { displayName := "Qwen 2.5 · 7B · Instruct"
      sizeBytes := 47 * gb / 10
      ramBytesMin := 9 * gb
      hfRepo := "Qwen/Qwen2.5-7B-Instruct-GGUF"
      ggufFile := "qwen2.5-7b-instruct-q4_k_m.gguf"
      tokenizerRepo := "Qwen/Qwen2.5-7B-Instruct"
      tokenizerFile := "tokenizer.json"
      blockCount := 28
      defaultSplits := splits28 },
    { displayName := "Qwen 2.5 Coder · 1.5B"
      sizeBytes := 986 * mb
      ramBytesMin := 2 * gb
      hfRepo := "Qwen/Qwen2.5-Coder-1.5B-Instruct-GGUF"
      ggufFile := "qwen2.5-coder-1.5b-instruct-q4_k_m.gguf"
      tokenizerRepo := "Qwen/Qwen2.5-Coder-1.5B-Instruct"
      tokenizerFile := "tokenizer.json"
      blockCount := 28
      defaultSplits := splits28 },
    { displayName := "Qwen 2.5 Coder · 7B"
      sizeBytes := 47 * gb / 10
      ramBytesMin := 9 * gb
      hfRepo := "Qwen/Qwen2.5-Coder-7B-Instruct-GGUF"
      ggufFile := "qwen2.5-coder-7b-instruct-q4_k_m.gguf"
      tokenizerRepo := "Qwen/Qwen2.5-Coder-7B-Instruct"
      tokenizerFile := "tokenizer.json"
      blockCount := 28
      defaultSplits := splits28 }]

/-- The two files of a model, in the order they are downloaded. -/
inductive Sidecar
  | tokenizer
  | weights
  deriving DecidableEq

def fileName (entry : HubEntry) : Sidecar → String
  | .tokenizer =>
      String.ofList (trimEndMatches ".gguf".toList entry.ggufFile.length entry.ggufFile.toList) ++
        ".tokenizer.json"
  | .weights => entry.ggufFile

def label (entry : HubEntry) : Sidecar → String
  | .tokenizer => entry.displayName ++ " · tokenizer"
  | .weights => entry.displayName ++ " · weights"

def url (entry : HubEntry) : Sidecar → String
  | .tokenizer => entry.tokenizerUrl
  | .weights => entry.ggufUrl

section Paths

variable (dir : Location)

def destPath (entry : HubEntry) (file : Sidecar) : Location := join dir (fileName entry file)

def partPath (entry : HubEntry) (file : Sidecar) : Location :=
  join dir (partName (fileName entry file))

end Paths

def hyphenPrefixes (stem : String) : List String :=
  let parts := stem.toList.splitOn '-'
  ((List.range (parts.length - 1)).reverse.map fun n =>
    String.ofList (['-'].intercalate (parts.take (n + 1))))

/-- The tokenizer of its own name, the one of the directory, one of a shorter name, any. -/
def locateFor (v : ByteVolume) (gguf : Location) : Option Location := do
  let name ← gguf.getLast?
  let dir := gguf.dropLast
  let stem := fileStem name
  let isFile := fun p => (v.content p).isSome
  let named := fun s => join dir (s ++ ".tokenizer.json")
  if isFile (named stem) then some (named stem)
  else if isFile (join dir "tokenizer.json") then some (join dir "tokenizer.json")
  else
    match ((hyphenPrefixes stem).map named).find? isFile with
    | some p => some p
    | none =>
        v.entries.keys.find? fun p => decide (p.dropLast = dir) &&
          (p.getLast?.any fun name => ".tokenizer.json".toList.isSuffixOf name.toList)

variable {dir : Location} {v : ByteVolume} {entry d : HubEntry} {f g : Sidecar}

theorem splitExtension_append {stem ext : List Char} (hstem : stem ≠ []) (hext : '.' ∉ ext) :
    splitExtension (stem ++ '.' :: ext) = (stem, some ext) := by
  have hlast : ((stem ++ '.' :: ext).reverse.takeWhile (· ≠ '.')).reverse = ext := by
    have hall : ∀ c ∈ ext.reverse, decide (c ≠ '.') = true := by
      intro c hc
      apply decide_eq_true
      rintro rfl
      exact hext (List.mem_reverse.mp hc)
    rw [List.reverse_append, List.reverse_cons, List.append_assoc,
      List.takeWhile_append_of_pos hall]
    simp
  have hbefore :
    (stem ++ '.' :: ext).take ((stem ++ '.' :: ext).length - ext.length - 1) = stem := by
    have hlength : (stem ++ '.' :: ext).length - ext.length - 1 = stem.length := by
      rw [List.length_append, List.length_cons]
      omega
    rw [hlength, List.take_left]
  have hshort : ext.length ≠ (stem ++ '.' :: ext).length := by
    rw [List.length_append, List.length_cons]
    omega
  simp only [splitExtension, hlast, hbefore, hshort, hstem, or_self, if_false]

theorem eq_of_splitExtension {name ext : List Char} (h : (splitExtension name).2 = some ext) :
    name = (splitExtension name).1 ++ '.' :: ext := by
  unfold splitExtension at h ⊢
  dsimp only at h ⊢
  split_ifs at h ⊢ with hwhole
  obtain rfl := Option.some.inj h
  obtain ⟨hlength, -⟩ := not_or.mp hwhole
  have hdot : '.' ∈ name.reverse := by
    by_contra hno
    have hall : name.reverse.takeWhile (· ≠ '.') = name.reverse := by
      apply List.takeWhile_eq_self_iff.mpr
      intro c hc
      apply decide_eq_true
      rintro rfl
      exact hno hc
    rw [hall, List.reverse_reverse] at hlength
    exact hlength rfl
  have hname := congrArg List.reverse (Stream.split_at_mark hdot).2
  rw [List.reverse_reverse, List.reverse_append, List.reverse_append, List.reverse_singleton,
    List.singleton_append] at hname
  generalize (name.reverse.takeWhile (· ≠ '.')).reverse = ext at hname
  generalize (name.reverse.dropWhile (· ≠ '.')).tail.reverse = before at hname
  subst hname
  have hbefore : (before ++ '.' :: ext).length - ext.length - 1 = before.length := by
    rw [List.length_append, List.length_cons]
    omega
  rw [hbefore, List.take_left]

/-- Behind an extension comes `.part`. -/
private theorem partName_append {stem ext : List Char} (hstem : stem ≠ []) (hext : '.' ∉ ext)
    (hne : ext ≠ []) :
    partName (String.ofList (stem ++ '.' :: ext)) =
      String.ofList (stem ++ '.' :: ext) ++ ".part" := by
  apply String.toList_injective
  simp only [partName, String.toList_ofList, splitExtension_append hstem hext, Option.getD_some,
    if_neg hne, String.toList_append, List.append_assoc, List.cons_append]
  rfl

/-- A GGUF file of the catalog is named by a stem, with one extension. -/
structure Named (entry : HubEntry) (stem : List Char) : Prop where
  gguf : entry.ggufFile = String.ofList (stem ++ ".gguf".toList)
  ne_nil : stem ≠ []
  noSlash : '/' ∉ stem
  once : ¬ ".gguf".toList <:+ stem

def ggufStem (entry : HubEntry) : List Char :=
  entry.ggufFile.toList.take (entry.ggufFile.toList.length - 5)

private theorem catalog_letters : ∀ entry ∈ catalog,
    entry.ggufFile.toList = ggufStem entry ++ ".gguf".toList ∧ ggufStem entry ≠ [] ∧
      '/' ∉ ggufStem entry ∧ ".gguf".toList.isSuffixOf (ggufStem entry) = false := by
  decide +kernel

private theorem catalog_nodup : (catalog.map HubEntry.ggufFile).Nodup := by
  decide +kernel

theorem catalog_named (h : entry ∈ catalog) : Named entry (ggufStem entry) := by
  obtain ⟨hgguf, hne, hslash, honce⟩ := catalog_letters entry h
  refine ⟨?_, hne, hslash, ?_⟩
  · rw [← hgguf, String.ofList_toList]
  · intro hsuffix
    rw [List.isSuffixOf_iff_suffix.mpr hsuffix] at honce
    cases honce

private theorem catalog_eq (he : entry ∈ catalog) (hd : d ∈ catalog)
    (h : ggufStem entry = ggufStem d) : entry = d := by
  apply List.inj_on_of_nodup_map catalog_nodup he hd
  rw [(catalog_named he).gguf, (catalog_named hd).gguf, h]

private theorem trimEndMatches_once {suffix stem : List Char} (hsuffix : suffix ≠ [])
    (h : ¬ suffix <:+ stem) (n : Nat) :
    trimEndMatches suffix (n + 2) (stem ++ suffix) = stem := by
  have hends : suffix.isSuffixOf (stem ++ suffix) = true :=
    List.isSuffixOf_iff_suffix.mpr (List.suffix_append _ _)
  have hcut : (stem ++ suffix).take ((stem ++ suffix).length - suffix.length) = stem := by
    rw [List.length_append, Nat.add_sub_cancel, List.take_left]
  have hagain : ¬ (suffix ≠ [] ∧ suffix.isSuffixOf stem = true) := by
    rintro ⟨-, htrue⟩
    exact h (List.isSuffixOf_iff_suffix.mp htrue)
  rw [trimEndMatches, if_pos ⟨hsuffix, hends⟩, hcut, trimEndMatches, if_neg hagain]

theorem trimEndMatches_named {stem : List Char} (h : Named entry stem) :
    trimEndMatches ".gguf".toList entry.ggufFile.length entry.ggufFile.toList = stem := by
  have hletters : entry.ggufFile.toList = stem ++ ".gguf".toList := by
    rw [h.gguf]
    exact String.toList_ofList
  have hlength : entry.ggufFile.length = stem.length + 3 + 2 := by
    rw [← String.length_toList, hletters, List.length_append]
    rfl
  rw [hlength, hletters]
  exact trimEndMatches_once (by decide) h.once _

private theorem fileName_tokenizer {stem : List Char} (h : Named entry stem) :
    fileName entry .tokenizer = String.ofList stem ++ ".tokenizer.json" := by
  rw [fileName, trimEndMatches_named h]

theorem fileName_weights {stem : List Char} (h : Named entry stem) :
    fileName entry .weights = String.ofList stem ++ ".gguf" := by
  rw [fileName, h.gguf, String.ofList_append, String.ofList_toList]

private theorem fileName_eq {stem : List Char} (h : Named entry stem) (file : Sidecar) :
    ∃ before ext : List Char, before ≠ [] ∧ '.' ∉ ext ∧ ext ≠ [] ∧
      fileName entry file = String.ofList (before ++ '.' :: ext) := by
  cases file with
  | tokenizer =>
      refine ⟨stem ++ ".tokenizer".toList, "json".toList, by simp, by decide, by decide, ?_⟩
      rw [fileName_tokenizer h]
      apply String.toList_injective
      simp
  | weights =>
      refine ⟨stem, "gguf".toList, h.ne_nil, by decide, by decide, ?_⟩
      rw [fileName_weights h]
      apply String.toList_injective
      simp

private theorem partName_fileName {stem : List Char} (h : Named entry stem) (file : Sidecar) :
    partName (fileName entry file) = fileName entry file ++ ".part" := by
  obtain ⟨before, ext, hbefore, hext, hne, heq⟩ := fileName_eq h file
  rw [heq, partName_append hbefore hext hne]

theorem destPath_eq (dir : Location) (h : entry ∈ catalog) (file : Sidecar) :
    destPath dir entry file = dir ++ [fileName entry file] := by
  have hnamed := catalog_named h
  have hslash : '/' ∉ (String.ofList (ggufStem entry)).toList := by
    rw [String.toList_ofList]
    exact hnamed.noSlash
  apply join_plain
  cases file with
  | tokenizer =>
      rw [fileName_tokenizer hnamed]
      exact .extend hslash (by decide) (by decide)
  | weights =>
      rw [fileName_weights hnamed]
      exact .extend hslash (by decide) (by decide)

private theorem partPath_eq (dir : Location) (h : entry ∈ catalog) (file : Sidecar) :
    partPath dir entry file = dir ++ [fileName entry file ++ ".part"] := by
  have hnamed := catalog_named h
  have hslash : '/' ∉ (fileName entry file).toList := by
    cases file with
    | tokenizer =>
        rw [fileName_tokenizer hnamed, String.toList_append, String.toList_ofList, List.mem_append]
        exact not_or.mpr ⟨hnamed.noSlash, by decide⟩
    | weights =>
        rw [fileName_weights hnamed, String.toList_append, String.toList_ofList, List.mem_append]
        exact not_or.mpr ⟨hnamed.noSlash, by decide⟩
  rw [partPath, partName_fileName hnamed]
  exact join_plain (.extend hslash (by decide) (by decide)) dir

private theorem append_name_inj {a b : String} (h : dir ++ [a] = dir ++ [b]) : a = b :=
  List.singleton_inj.mp (List.append_cancel_left h)

private theorem last_letter {a b : List Char} {x y : Char} (h : a ++ [x] = b ++ [y]) : x = y :=
  List.singleton_inj.mp (List.append_inj' h rfl).2

private theorem fileName_last (h : entry ∈ catalog) (file : Sidecar) :
    ∃ before, (fileName entry file).toList =
      before ++ [match file with | .tokenizer => 'n' | .weights => 'f'] := by
  have hnamed := catalog_named h
  cases file with
  | tokenizer =>
      refine ⟨ggufStem entry ++ ".tokenizer.jso".toList, ?_⟩
      rw [fileName_tokenizer hnamed, String.toList_append, String.toList_ofList, List.append_assoc]
      rfl
  | weights =>
      refine ⟨ggufStem entry ++ ".ggu".toList, ?_⟩
      rw [fileName_weights hnamed, String.toList_append, String.toList_ofList, List.append_assoc]
      rfl

private theorem fileName_inj (he : entry ∈ catalog) (hd : d ∈ catalog)
    (h : fileName entry f = fileName d g) : entry = d ∧ f = g := by
  have hkind : f = g := by
    obtain ⟨a, ha⟩ := fileName_last he f
    obtain ⟨b, hb⟩ := fileName_last hd g
    rw [h, hb] at ha
    have hletter := last_letter ha
    cases f <;> cases g <;> simp at hletter ⊢
  subst hkind
  refine ⟨catalog_eq he hd ?_, rfl⟩
  apply String.ofList_injective
  cases f with
  | tokenizer =>
      rw [fileName_tokenizer (catalog_named he), fileName_tokenizer (catalog_named hd)] at h
      exact (String.append_left_inj _).mp h
  | weights =>
      rw [fileName_weights (catalog_named he), fileName_weights (catalog_named hd)] at h
      exact (String.append_left_inj _).mp h

theorem destPath_inj (he : entry ∈ catalog) (hd : d ∈ catalog)
    (h : destPath dir entry f = destPath dir d g) : entry = d ∧ f = g := by
  rw [destPath_eq dir he, destPath_eq dir hd] at h
  exact fileName_inj he hd (append_name_inj h)

theorem partPath_inj (he : entry ∈ catalog) (hd : d ∈ catalog)
    (h : partPath dir entry f = partPath dir d g) : entry = d ∧ f = g := by
  rw [partPath_eq dir he, partPath_eq dir hd] at h
  exact fileName_inj he hd ((String.append_left_inj _).mp (append_name_inj h))

theorem destPath_ne_partPath (he : entry ∈ catalog) (hd : d ∈ catalog) :
    destPath dir entry f ≠ partPath dir d g := by
  rw [destPath_eq dir he, partPath_eq dir hd]
  intro h
  have heq := append_name_inj h
  obtain ⟨before, hlast⟩ := fileName_last he f
  rw [heq, String.toList_append] at hlast
  have hletter : (fileName d g).toList ++ ".par".toList ++ ['t'] =
      before ++ [match f with | .tokenizer => 'n' | .weights => 'f'] := by
    rw [← hlast, List.append_assoc]
    rfl
  have hwrong := last_letter hletter
  cases f <;> simp at hwrong

theorem locateFor_own (h : entry ∈ catalog)
    (hshown : (v.content (destPath dir entry .tokenizer)).isSome) :
    locateFor v (destPath dir entry .weights) = some (destPath dir entry .tokenizer) := by
  have hnamed := catalog_named h
  have hstem : fileStem (fileName entry .weights) = String.ofList (ggufStem entry) := by
    have hdot : (fileName entry .weights).toList = ggufStem entry ++ '.' :: "gguf".toList := by
      rw [fileName_weights hnamed, String.toList_append, String.toList_ofList]
      rfl
    rw [fileStem, hdot, splitExtension_append hnamed.ne_nil (by decide)]
  have hown : join dir (String.ofList (ggufStem entry) ++ ".tokenizer.json") =
      destPath dir entry .tokenizer := by
    rw [destPath, fileName_tokenizer hnamed]
  rw [locateFor, destPath_eq dir h .weights, List.getLast?_concat, List.dropLast_concat]
  simp only [Option.bind_eq_bind, Option.bind_some, hstem, hown, hshown, if_true]

end IntelNav.App.Downloads
