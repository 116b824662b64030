import IntelNav.App.Installs
import IntelNav.Net.Shards
import IntelNav.Tui.Picker

/-! The models the picker offers (`crates/app/src/local.rs`, `browser.rs`): what is in the models
directory, what the swarm has, and what the catalog can install. -/

set_option autoImplicit false
set_option relaxedAutoImplicit false

namespace IntelNav.App.Downloads

open IntelNav.Disk IntelNav.ModelStore IntelNav.Net IntelNav.Transition

/-- A GGUF of the directory. Its architecture is always known. -/
structure ScannedModel where
  name : String
  path : Location
  tokenizer : Option Location
  sizeBytes : Nat
  deriving DecidableEq

def ScannedModel.isUsable (m : ScannedModel) : Bool := m.tokenizer.isSome

section Scan

variable (v : ByteVolume) (dir : Location)

def scanned (p : Location) : Option ScannedModel :=
  p.getLast?.bind fun name =>
    if p.dropLast = dir ∧ (splitExtension name.toList).2 = some "gguf".toList then
      some
        { name := fileStem name, path := p, tokenizer := locateFor v p
          sizeBytes := ((v.content p).getD []).length }
    else none

def listModels : List ScannedModel :=
  (v.entries.keys.filterMap (scanned v dir)).mergeSort fun a b => decide (a.name ≤ b.name)

end Scan

/-- The name under which the model of an entry is found in the directory. -/
def cachedName (entry : HubEntry) : String :=
  String.ofList (trimEndMatches ".gguf".toList entry.ggufFile.length entry.ggufFile.toList)

def eqIgnoreAsciiCase (a b : String) : Bool := Tui.toAsciiLowercase a = Tui.toAsciiLowercase b

def findByLocalName (name : String) : Option HubEntry :=
  catalog.find? fun entry => eqIgnoreAsciiCase (cachedName entry) name

/-- `RowKind`: what a row stands for. -/
inductive Offer
  | cached (path : Location)
  | swarm (cid : String) (uniquePeers rangesTotal rangesCovered : Nat) (fullyServed : Bool)
  | install (entry : HubEntry) (fit : Fit) (swarmPeers : Nat)

structure PickerRow where
  model : String
  tag : String
  detail : String
  kind : Offer
  enabled : Bool
  contributeOk : Bool

def PickerRow.source (row : PickerRow) : Tui.SourceRow where
  model := row.model
  kind :=
    match row.kind with
    | .cached path => .cached ((path.getLast?.map fileStem).getD row.model)
    | .swarm cid _ _ _ _ => .swarm cid
    | .install entry _ _ => .install entry.displayName
  enabled := row.enabled
  contributeOk := row.contributeOk

section Rows

variable (humanBytes : Nat → String) (cidText : String → String)

def localRow (m : ScannedModel) : PickerRow where
  model := m.name
  tag := "local"
  detail := s!"cached · {humanBytes m.sizeBytes}"
  kind := .cached m.path
  enabled := true
  contributeOk := (findByLocalName m.name).isSome

def swarmRow (sm : SwarmModel) : PickerRow :=
  let unique := sm.uniqueProviders
  let total := sm.ranges.length
  let cov := sm.ranges.countP fun r => !r.providers.isEmpty
  let fully := sm.fullyServed
  { model := (sm.envelope.map ModelEnvelope.displayName).getD sm.cid
    tag := "swarm"
    detail :=
      if fully then s!"{unique} peers · {cov}/{total} slices · ready"
      else if cov = 0 then s!"{unique} peers · no slice fully covered yet"
      else s!"{unique} peers · {cov}/{total} slices · partial"
    kind := .swarm sm.cid unique total cov fully
    enabled := fully
    contributeOk := true }

def hubRow (swarm : List SwarmModel) (free : Nat) (entry : HubEntry) : PickerRow :=
  let fit := fitFor entry.ramBytesMin free
  -- The last model of a CID is the one that is looked up.
  let swarmPeers := ((swarm.reverse.find? fun sm => sm.cid = entry.modelCid cidText).map
    SwarmModel.uniqueProviders).getD 0
  let fitBlurb :=
    match fit with
    | .fits => s!"{humanBytes entry.sizeBytes} · fits your RAM"
    | .tight => s!"{humanBytes entry.sizeBytes} · tight — {humanBytes entry.ramBytesMin} min free"
    | .tooBig =>
        s!"{humanBytes entry.sizeBytes} · too big — needs {humanBytes entry.ramBytesMin} free"
  { model := entry.displayName
    tag := "hub"
    detail := if 0 < swarmPeers then s!"{fitBlurb} · {swarmPeers} swarm peers" else fitBlurb
    kind := .install entry fit swarmPeers
    enabled := fit ≠ .tooBig
    contributeOk := fit ≠ .tooBig }

def buildRows (models : List ScannedModel) (swarm : List SwarmModel) (free : Nat) :
    List PickerRow :=
  let catalogCids := catalog.map fun entry => entry.modelCid cidText
  let cachedNames := models.map ScannedModel.name
  (models.filter ScannedModel.isUsable).map (localRow humanBytes) ++
    (swarm.filter fun sm => sm.cid ∉ catalogCids).map swarmRow ++
    (catalog.filter fun entry => cachedName entry ∉ cachedNames).map
      (hubRow humanBytes cidText swarm free)

end Rows

variable {dir : Location} {start v : ByteVolume} {entry : HubEntry} {m : ScannedModel}
variable {humanBytes : Nat → String} {cidText : String → String} {models : List ScannedModel}
variable {swarm : List SwarmModel} {free : Nat} {row : PickerRow} {events : List InstallEvent}
variable {t : Installs}

private theorem mem_listModels : m ∈ listModels v dir ↔ ∃ p ∈ v.entries.keys,
    scanned v dir p = some m := by
  rw [listModels, List.mem_mergeSort, List.mem_filterMap]

private theorem cachedName_eq (h : entry ∈ catalog) :
    cachedName entry = String.ofList (ggufStem entry) := by
  rw [cachedName, trimEndMatches_named (catalog_named h)]

private theorem weights_letters (h : entry ∈ catalog) :
    (fileName entry .weights).toList = ggufStem entry ++ '.' :: "gguf".toList := by
  rw [fileName_weights (catalog_named h), String.toList_append, String.toList_ofList]
  rfl

private theorem splitExtension_weights (h : entry ∈ catalog) :
    splitExtension (fileName entry .weights).toList = (ggufStem entry, some "gguf".toList) := by
  rw [weights_letters h, splitExtension_append (catalog_named h).ne_nil (by decide)]

private theorem fileStem_weights (h : entry ∈ catalog) :
    fileStem (fileName entry .weights) = cachedName entry := by
  rw [fileStem, splitExtension_weights h, cachedName_eq h]

private theorem scanned_weights (h : entry ∈ catalog) :
    scanned v dir (destPath dir entry .weights) = some
      { name := cachedName entry
        path := destPath dir entry .weights
        tokenizer := locateFor v (destPath dir entry .weights)
        sizeBytes := ((v.content (destPath dir entry .weights)).getD []).length } := by
  have hfile : (destPath dir entry .weights).getLast? = some (fileName entry .weights) := by
    rw [destPath_eq dir h, List.getLast?_concat]
  have hdir : (destPath dir entry .weights).dropLast = dir := by
    rw [destPath_eq dir h, List.dropLast_concat]
  rw [scanned, hfile, Option.bind_some, splitExtension_weights h, hdir, if_pos ⟨rfl, rfl⟩,
    fileStem_weights h]

private theorem path_of_cachedName (h : entry ∈ catalog) {p : Location}
    (hscan : scanned v dir p = some m)
    (hname : m.name = cachedName entry) : p = destPath dir entry .weights ∧ m.path = p := by
  obtain ⟨name, hlast, hscan⟩ := Option.bind_eq_some_iff.mp hscan
  split_ifs at hscan with hgguf
  obtain rfl := Option.some.inj hscan
  obtain ⟨hdir, hext⟩ := hgguf
  have hletters := eq_of_splitExtension hext
  have hstem : (splitExtension name.toList).1 = ggufStem entry := by
    apply String.ofList_injective
    rw [← cachedName_eq h]
    exact hname
  have hfile : name = fileName entry .weights := by
    apply String.toList_injective
    rw [hletters, hstem, weights_letters h]
  refine ⟨?_, rfl⟩
  rw [destPath_eq dir h, ← hfile, ← hdir]
  exact (List.dropLast_append_getLast? name hlast).symm

private theorem mem_keys_iff {p : Location} : p ∈ v.entries.keys ↔ (v.content p).isSome := by
  rw [Volume.content, Option.isSome_map, AList.lookup_isSome, AList.mem_keys]

private theorem cachedName_mem_iff (h : entry ∈ catalog) :
    cachedName entry ∈ (listModels v dir).map ScannedModel.name ↔
      (v.content (destPath dir entry .weights)).isSome := by
  rw [List.mem_map, ← mem_keys_iff]
  constructor
  · rintro ⟨m, hm, hname⟩
    obtain ⟨p, hp, hscan⟩ := mem_listModels.mp hm
    rw [← (path_of_cachedName h hscan hname).1]
    exact hp
  · intro hp
    exact ⟨_, mem_listModels.mpr ⟨_, hp, scanned_weights h⟩, rfl⟩

private theorem mem_buildRows :
    row ∈ buildRows humanBytes cidText models swarm free ↔
      (∃ m ∈ models, m.isUsable = true ∧ localRow humanBytes m = row) ∨
      (∃ sm ∈ swarm, (sm.cid ∉ catalog.map fun entry => entry.modelCid cidText) ∧
        swarmRow sm = row) ∨
      ∃ entry ∈ catalog, cachedName entry ∉ models.map ScannedModel.name ∧
        hubRow humanBytes cidText swarm free entry = row := by
  rw [buildRows, List.mem_append, List.mem_append, or_assoc]
  simp only [List.mem_map, List.mem_filter, decide_eq_true_eq, and_assoc]

private theorem install_offered_iff (h : entry ∈ catalog) :
    (∃ row ∈ buildRows humanBytes cidText (listModels v dir) swarm free,
      ∃ fit swarmPeers, row.kind = .install entry fit swarmPeers) ↔
      v.content (destPath dir entry .weights) = none := by
  have hname : cachedName entry ∈ (listModels v dir).map ScannedModel.name ↔
      (v.content (destPath dir entry .weights)).isSome := cachedName_mem_iff h
  constructor
  · rintro ⟨row, hrow, fit, swarmPeers, hkind⟩
    rcases mem_buildRows.mp hrow with ⟨m, -, -, rfl⟩ | ⟨sm, -, -, rfl⟩ | ⟨d, -, hd, rfl⟩
    · cases hkind
    · cases hkind
    · obtain ⟨rfl, -, -⟩ := Offer.install.inj hkind
      rw [hname, Bool.not_eq_true, Option.isSome_eq_false_iff, Option.isNone_iff_eq_none] at hd
      exact hd
  · intro hnone
    refine ⟨_, mem_buildRows.mpr (.inr (.inr ⟨entry, h, ?_, rfl⟩)), _, _, rfl⟩
    rw [hname, hnone]
    exact Bool.false_ne_true

private theorem localRow_contributeOk :
    (localRow humanBytes m).contributeOk = (findByLocalName m.name).isSome := rfl

private theorem findByLocalName_cachedName (h : entry ∈ catalog) :
    (findByLocalName (cachedName entry)).isSome := by
  rw [findByLocalName, List.find?_isSome]
  exact ⟨entry, h, decide_eq_true rfl⟩

private theorem cached_offered (h : entry ∈ catalog)
    (hshown : (v.content (destPath dir entry .weights)).isSome)
    (htokenizer : (locateFor v (destPath dir entry .weights)).isSome) :
    ∃ row ∈ buildRows humanBytes cidText (listModels v dir) swarm free,
      row.kind = .cached (destPath dir entry .weights) ∧ row.enabled = true ∧
        row.contributeOk = true := by
  have hmodel := mem_listModels.mpr ⟨_, mem_keys_iff.mpr hshown, scanned_weights (v := v) h⟩
  refine ⟨_, mem_buildRows.mpr (.inl ⟨_, hmodel, htokenizer, rfl⟩), rfl, rfl, ?_⟩
  rw [localRow_contributeOk]
  exact findByLocalName_cachedName h

/-- The weights have changed since `start`, or an install has said that it was done. -/
def Completed (dir : Location) (start : ByteVolume) (t : Installs) (entry : HubEntry) : Prop :=
  (∃ bytes, t.volume.content (destPath dir entry .weights) = some bytes ∧
    start.content (destPath dir entry .weights) ≠ some bytes) ∨
  ∃ r ∈ t.installs, r.entry = entry ∧ ∃ name path, .done name path ∈ r.events

/-- The picker is opened, `n` times the next row is asked for, and Enter is pressed. -/
def chosen (o : Tui.Outside) (app : Tui.AppState) (rows : List PickerRow) (n : Nat) :
    Tui.AppState :=
  Tui.AppState.press o { app with view := .browser (.new (rows.map PickerRow.source)) }
    (List.replicate n Tui.downKey ++ [Tui.enterKey])

theorem Installed.completed (h : Installed dir start events t) (hentry : entry ∈ catalog)
    (hdone : Completed dir start t entry) :
    (t.volume.content (destPath dir entry .weights)).isSome ∧
      (locateFor t.volume (destPath dir entry .weights)).isSome := by
  rcases hdone with ⟨bytes, hbytes, hne⟩ | ⟨r, hr, rfl, name, path, hdone⟩
  · have hchanged : t.volume.content (destPath dir entry .weights) ≠
        start.content (destPath dir entry .weights) := by
      intro heq
      exact hne (heq.symm.trans hbytes)
    rw [h.paired entry hentry hchanged, hbytes]
    exact ⟨rfl, rfl⟩
  · obtain ⟨rfl, hshown, htokenizer⟩ := h.told r hr name path hdone
    rw [htokenizer]
    exact ⟨hshown, rfl⟩

private theorem source_cached (h : entry ∈ catalog)
    (hkind : row.kind = .cached (destPath dir entry .weights)) :
    row.source.kind = .cached (cachedName entry) := by
  rw [PickerRow.source, hkind, destPath_eq dir h, ← fileStem_weights h]
  simp only [List.getLast?_concat, Option.map_some, Option.getD_some]

/-- In whatever way installs have run: a model of the catalog is offered for download just when its
weights are not there, and one that was installed can be hosted, and is chosen by going down to it
and pressing Enter. -/
theorem installs_offered (dir : Location) (start : ByteVolume) (events : List InstallEvent)
    (t : Installs) (hrun : Run (installStep dir) InstallsApart ⟨start, []⟩ events t)
    (humanBytes : Nat → String) (cidText : String → String) (swarm : List SwarmModel) (free : Nat)
    (o : Tui.Outside) (app : Tui.AppState) :
    let rows := buildRows humanBytes cidText (listModels t.volume dir) swarm free
    ∀ entry ∈ catalog,
      ((∃ row ∈ rows, ∃ fit swarmPeers, row.kind = .install entry fit swarmPeers) ↔
        t.volume.content (destPath dir entry .weights) = none) ∧
      (Completed dir start t entry →
        (∃ row ∈ rows, row.kind = .cached (destPath dir entry .weights) ∧ row.contributeOk = true) ∧
        ∃ n, (chosen o app rows n).mode = .localMode ∧
          (chosen o app rows n).model = cachedName entry ∧ (chosen o app rows n).view = .chat) := by
  intro rows entry hentry
  refine ⟨install_offered_iff hentry, ?_⟩
  intro hdone
  have hinstalled : Installed dir start events t := installed_of_run hrun
  obtain ⟨hshown, htokenizer⟩ := hinstalled.completed hentry hdone
  have hoffered : ∃ row ∈ rows, row.kind = .cached (destPath dir entry .weights) ∧
      row.enabled = true ∧ row.contributeOk = true :=
    cached_offered hentry hshown htokenizer
  obtain ⟨row, hrow, hkind, henabled, hcontribute⟩ := hoffered
  refine ⟨⟨row, hrow, hkind, hcontribute⟩, ?_⟩
  have hsource : row.source ∈ rows.map PickerRow.source := List.mem_map_of_mem hrow
  obtain ⟨j, hj⟩ := List.mem_iff_getElem?.mp hsource
  have hstop : Layout.isStop Tui.SourceRow.selectable (rows.map PickerRow.source) j = true := by
    rw [Layout.isStop, hj]
    exact (Bool.or_eq_true _ _).mpr (.inl henabled)
  have hstart := Tui.BrowserState.new_onStop ⟨row.source, hsource, henabled⟩
  let shown : Tui.AppState := { app with view := .browser (.new (rows.map PickerRow.source)) }
  have hview : shown.view = .browser (.new (rows.map PickerRow.source)) := rfl
  obtain ⟨n, exitPending, hpress⟩ := Tui.exists_press o hview hstart hstop
  have hcurrent : (⟨rows.map PickerRow.source, j⟩ : Tui.BrowserState).current =
    some row.source := hj
  refine ⟨n, ?_⟩
  rw [chosen, Tui.press_append, hpress]
  exact Tui.enter_cached o rfl hcurrent henabled (source_cached hentry hkind)

/-- A model whose tokenizer was spoiled is not offered for download again, but can be chosen. -/
theorem installs_offered_spoiled :
    let rows (t : Installs) := buildRows toString id (listModels t.volume ["models"]) [] 0
    ∃ t, Run (installStep ["models"]) InstallsApart ⟨Volume.empty, []⟩ spoiledInstall t ∧
      (¬∃ row ∈ rows t, ∃ fit swarmPeers, row.kind = .install smallest fit swarmPeers) ∧
      ∃ n, (chosen Tui.Chat.oneModel Tui.Chat.typedPrompt (rows t) n).mode = .localMode ∧
        (chosen Tui.Chat.oneModel Tui.Chat.typedPrompt (rows t) n).model = cachedName smallest := by
  intro rows
  obtain ⟨t, hsteps, -, hweights⟩ := spoiledInstall_runs
  obtain ⟨hoffered, hchosen⟩ := installs_offered ["models"] Volume.empty spoiledInstall t hsteps
    toString id [] 0 Tui.Chat.oneModel Tui.Chat.typedPrompt smallest List.mem_cons_self
  refine ⟨t, hsteps, ?_, ?_⟩
  · rw [hoffered, hweights]
    exact nofun
  · obtain ⟨-, n, hmode, hmodel, -⟩ := hchosen (.inl ⟨[9], hweights, nofun⟩)
    exact ⟨n, hmode, hmodel⟩

end IntelNav.App.Downloads
