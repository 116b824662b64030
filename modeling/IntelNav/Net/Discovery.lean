import IntelNav.Net.Shards
import IntelNav.Net.SwarmReplies
import IntelNav.Transition.Family

/-! Announcements and lookups in a swarm of nodes: what a lookup is told was announced for the same
topic by some node, whatever the order in which the nodes and the network act. -/

set_option autoImplicit false
set_option relaxedAutoImplicit false

namespace IntelNav.Net

open IntelNav.Transition

variable {Peer Addr Key Query : Type}

namespace Driver

section

variable [DecidableEq Query] (d : Driver Peer Addr Key Query)

private theorem channels_settle (kind : QueryKind) (id : Query) (reply : Reply Peer Addr) :
    (d.settle kind id reply).channels = d.channels := by
  unfold settle
  split
  · cases kind <;> rfl
  · rfl

private theorem channels_endGet (id : Query) (reply : List Value → Except String (List Value)) :
    (d.endGet id reply).channels = d.channels :=
  channels_settle _ _ _ _

private theorem channels_start (id : Query) (request : Request Key) :
    (d.start id request).channels = d.channels + 1 := by
  cases request <;> rfl

omit [DecidableEq Query] in
private theorem channels_sendPeer (channel : Nat) (peer : IdentifiedPeer Peer Addr) :
    (d.sendPeer channel peer).channels = d.channels := by
  unfold sendPeer
  dsimp only
  split <;> rfl

private theorem channels_turn (e : SwarmEvent Peer Addr Key Query) :
    d.channels ≤ (d.turn e).channels := by
  cases e with
  | dial addr result => exact Nat.le_succ _
  | shutdown | addBootstrap | giveUp | other => exact Nat.le_refl d.channels
  | nextIdentified =>
      change _ ≤ d.onNextIdentified.channels
      unfold onNextIdentified
      split
      · rw [channels_sendPeer]
        exact Nat.le_succ _
      · exact Nat.le_succ _
  | bootstrap started =>
      cases started with
      | ok id => exact (channels_start d id .bootstrap).symm ▸ Nat.le_succ _
      | error e => exact Nat.le_succ _
  | announceShard key value started =>
      cases started with
      | ok id => exact (channels_start d id (.announceShard key value)).symm ▸ Nat.le_succ _
      | error e => exact Nat.le_succ _
  | getShardProviders key id => exact Nat.le_succ _
  | identifyReceived peer =>
      change _ ≤ (d.onIdentified peer).channels
      unfold onIdentified
      split
      · rw [channels_sendPeer]
      · exact Nat.le_refl _
  | putRecord id result => exact (channels_settle (d.observe (.ended id .put)) .put id _).ge
  | foundRecord id value =>
      change _ ≤ (d.onFoundRecord id value).channels
      unfold onFoundRecord
      split <;> exact Nat.le_refl _
  | finishedWithNoAdditionalRecord id last =>
      cases last with
      | true => exact (channels_endGet d id .ok).ge
      | false => exact Nat.le_refl _
  | getRecordFailed id error => exact (channels_endGet (d.observe (.failed id error)) id _).ge
  | bootstrapProgressed id last result =>
      cases last with
      | true => exact (channels_settle (d.observe (.ended id .bootstrap)) .bootstrap id _).ge
      | false => exact Nat.le_refl _

end

end Driver

/-- What happens at a node: one of the calls that go to the DHT, or anything else. -/
inductive NodeEvent (Peer Addr Key Query : Type)
  | announce (a : Announcement) (started : Except String Query)
  | lookup (t : Topic) (id : Query)
  | swarm (e : SwarmEvent Peer Addr Key Query)

/-- A handle with its swarm task, and the calls made so far, each with its channel. -/
structure Libp2pNode (Peer Addr Key Query : Type) where
  swarm : Driver Peer Addr Key Query := {}
  announced : List (Nat × Announcement) := []
  lookups : List (Nat × Topic) := []

def SwarmEvent.recordCommand : SwarmEvent Peer Addr Key Query → Bool
  | .announceShard .. => true
  | .getShardProviders .. => true
  | _ => false

def NodeEvent.event (blake3 : List UInt8 → Key) : NodeEvent Peer Addr Key Query →
    SwarmEvent Peer Addr Key Query
  | .announce a started => .announceShard (a.topic.key blake3) a.value started
  | .lookup t id => .getShardProviders (t.key blake3) id
  | .swarm e => e

namespace Libp2pNode

def note (node : Libp2pNode Peer Addr Key Query) : NodeEvent Peer Addr Key Query →
    Libp2pNode Peer Addr Key Query
  | .announce a _ => { node with announced := (node.swarm.channels, a) :: node.announced }
  | .lookup t _ => { node with lookups := (node.swarm.channels, t) :: node.lookups }
  | .swarm _ => node

def allowed : NodeEvent Peer Addr Key Query → Bool
  | .swarm e => !e.recordCommand
  | _ => true

def step [DecidableEq Query] (blake3 : List UInt8 → Key) (node : Libp2pNode Peer Addr Key Query)
    (e : NodeEvent Peer Addr Key Query) : Option (Libp2pNode Peer Addr Key Query) :=
  if allowed e then (node.swarm.step (e.event blake3)).map fun swarm => { node.note e with swarm }
  else none

def said (node : Libp2pNode Peer Addr Key Query) : Set (Key × Value) :=
  { kv | ∃ id n, .started id n (.announceShard kv.1 kv.2) ∈ node.swarm.history }

/-- Query ids are fresh, and the DHT returns for a key what was put under that key. -/
structure Told (blake3 : List UInt8 → Key) (put : Set (Key × Value))
    (node : Libp2pNode Peer Addr Key Query) (e : NodeEvent Peer Addr Key Query) : Prop where
  fresh : node.swarm.Fresh (e.event blake3)
  honest : ∀ id value, e.event blake3 = .foundRecord id value → ∀ n key,
    .started id n (.getShardProviders key) ∈ node.swarm.history → (key, value) ∈ put

/-- What the calls and the queries of a node have to do with each other, and with what was put on
the DHT. -/
structure Faithful (blake3 : List UInt8 → Key) (put : Set (Key × Value))
    (node : Libp2pNode Peer Addr Key Query) : Prop where
  bounded : ∀ n t, (n, t) ∈ node.lookups → n < node.swarm.channels
  single : ∀ n t t', (n, t) ∈ node.lookups → (n, t') ∈ node.lookups → t = t'
  announcing : ∀ id n key value, .started id n (.announceShard key value) ∈ node.swarm.history →
    ∃ a, (n, a) ∈ node.announced ∧ a.topic.key blake3 = key ∧ a.value = value
  looking : ∀ id n key, .started id n (.getShardProviders key) ∈ node.swarm.history →
    ∃ t, (n, t) ∈ node.lookups ∧ t.key blake3 = key
  found : ∀ id value, .found id value ∈ node.swarm.history → ∀ n key,
    .started id n (.getShardProviders key) ∈ node.swarm.history → (key, value) ∈ put

variable [DecidableEq Query] {blake3 : List UInt8 → Key} {put put' : Set (Key × Value)}
  {node node' : Libp2pNode Peer Addr Key Query} {e : NodeEvent Peer Addr Key Query}

private theorem step_eq_some : node.step blake3 e = some node' ↔
    allowed e = true ∧ node.swarm.stopped = false ∧
      node' = { node.note e with swarm := node.swarm.turn (e.event blake3) } := by
  unfold step Driver.step
  cases allowed e <;> cases node.swarm.stopped <;> simp [eq_comm]

private theorem said_step (hs : node.step blake3 e = some node') : node.said ⊆ node'.said := by
  obtain ⟨-, -, rfl⟩ := step_eq_some.mp hs
  rintro kv ⟨id, n, hstarted⟩
  exact ⟨id, n, (Driver.extends_turn _ _).subset hstarted⟩

omit [DecidableEq Query] in
theorem Faithful.mono (h : Faithful blake3 put node) (hput : put ⊆ put') :
    Faithful blake3 put' node :=
  ⟨h.bounded, h.single, h.announcing, h.looking,
    fun id value hfound n key hstarted => hput (h.found id value hfound n key hstarted)⟩

omit [DecidableEq Query] in
private theorem note_announced (h : allowed e = true) {id : Query} {key : Key} {value : Value}
    (hasks : (e.event blake3).asks = some (id, .announceShard key value)) :
    ∃ a, (node.swarm.channels, a) ∈ (node.note e).announced ∧ a.topic.key blake3 = key ∧
      a.value = value := by
  cases e with
  | announce a started =>
      cases started with
      | ok id' =>
          obtain ⟨-, hrequest⟩ := Prod.mk.inj (Option.some.inj hasks)
          obtain ⟨hkey, hvalue⟩ := Request.announceShard.inj hrequest
          exact ⟨a, List.mem_cons_self, hkey, hvalue⟩
      | error e => cases hasks
  | lookup t id' => cases (Prod.mk.inj (Option.some.inj hasks)).2
  | swarm e =>
      cases e with
      | announceShard | getShardProviders => cases h
      | bootstrap started => cases started <;> cases hasks
      | _ => cases hasks

omit [DecidableEq Query] in
private theorem note_lookups (h : allowed e = true) {id : Query} {key : Key}
    (hasks : (e.event blake3).asks = some (id, .getShardProviders key)) :
    ∃ t, (node.swarm.channels, t) ∈ (node.note e).lookups ∧ t.key blake3 = key := by
  cases e with
  | announce a started =>
      cases started with
      | ok id' => cases (Prod.mk.inj (Option.some.inj hasks)).2
      | error e => cases hasks
  | lookup t id' =>
      obtain ⟨-, hrequest⟩ := Prod.mk.inj (Option.some.inj hasks)
      exact ⟨t, List.mem_cons_self, Request.getShardProviders.inj hrequest⟩
  | swarm e =>
      cases e with
      | announceShard | getShardProviders => cases h
      | bootstrap started => cases started <;> cases hasks
      | _ => cases hasks

omit [DecidableEq Query] in
private theorem subset_note (node : Libp2pNode Peer Addr Key Query)
    (e : NodeEvent Peer Addr Key Query) :
    node.announced ⊆ (node.note e).announced ∧ node.lookups ⊆ (node.note e).lookups := by
  cases e with
  | announce a started => exact ⟨List.subset_cons_self _ _, List.Subset.refl _⟩
  | lookup t id => exact ⟨List.Subset.refl _, List.subset_cons_self _ _⟩
  | swarm e => exact ⟨List.Subset.refl _, List.Subset.refl _⟩

omit [DecidableEq Query] in
private theorem starts_of_asks {e : SwarmEvent Peer Addr Key Query} {id : Query} {r : Request Key}
    (h : e.asks = some (id, r)) : e.starts = some id := by
  cases e with
  | bootstrap started =>
      cases started with
      | ok id' => exact congrArg (Option.map Prod.fst) h
      | error e => cases h
  | announceShard key value started =>
      cases started with
      | ok id' => exact congrArg (Option.map Prod.fst) h
      | error e => cases h
  | getShardProviders key id' => exact congrArg (Option.map Prod.fst) h
  | _ => cases h

private theorem lookups_step (hs : node.step blake3 e = some node') {n : Nat} {t : Topic}
    (h : (n, t) ∈ node'.lookups) :
    (n, t) ∈ node.lookups ∨
      (n = node.swarm.channels ∧ node'.swarm.channels = n + 1 ∧ ∃ id, e = .lookup t id) := by
  obtain ⟨-, -, rfl⟩ := step_eq_some.mp hs
  cases e with
  | announce a started => exact .inl h
  | lookup t' id =>
      rcases List.mem_cons.mp h with heq | h
      · obtain ⟨rfl, rfl⟩ := Prod.mk.inj heq
        exact .inr ⟨rfl, rfl, id, rfl⟩
      · exact .inl h
  | swarm e => exact .inl h

theorem Faithful.step (h : Faithful blake3 put node) (htold : Told blake3 put node e)
    (hs : node.step blake3 e = some node') : Faithful blake3 put node' := by
  obtain ⟨hallowed, -, hnode⟩ := step_eq_some.mp hs
  have hswarm : node'.swarm = node.swarm.turn (e.event blake3) := by rw [hnode]
  have hnoted : node'.announced = (node.note e).announced ∧
      node'.lookups = (node.note e).lookups := by
    rw [hnode]
    exact ⟨rfl, rfl⟩
  have hgrown : node.swarm.channels ≤ node'.swarm.channels := by
    rw [hswarm]
    exact Driver.channels_turn _ _
  have hmem : ∀ {o}, o ∈ node'.swarm.history →
      o ∈ node.swarm.history ∨ Driver.Adds node.swarm.channels (e.event blake3) o := by
    rw [hswarm]
    exact (Driver.extends_turn _ _).mem
  refine ⟨fun n t ht => ?_, fun n t t' ht ht' => ?_, fun id n key value hstarted => ?_,
    fun id n key hstarted => ?_, fun id value hfound n key hstarted => ?_⟩
  · rcases lookups_step hs ht with ht | ⟨-, hnext, -⟩
    · exact (h.bounded n t ht).trans_le hgrown
    · exact hnext ▸ Nat.lt_succ_self n
  · rcases lookups_step hs ht with ht | ⟨hn, -, id, he⟩ <;>
      rcases lookups_step hs ht' with ht' | ⟨hn', -, id', he'⟩
    · exact h.single n t t' ht ht'
    · exact absurd (h.bounded n t ht) (hn' ▸ lt_irrefl _)
    · exact absurd (h.bounded n t' ht') (hn ▸ lt_irrefl _)
    · exact (NodeEvent.lookup.inj (he.symm.trans he')).1
  · rw [hnoted.1]
    rcases hmem hstarted with hold | ⟨rfl, hasks⟩
    · obtain ⟨a, ha, hrest⟩ := h.announcing id n key value hold
      exact ⟨a, (subset_note node e).1 ha, hrest⟩
    · exact note_announced hallowed hasks
  · rw [hnoted.2]
    rcases hmem hstarted with hold | ⟨rfl, hasks⟩
    · obtain ⟨t, ht, hkey⟩ := h.looking id n key hold
      exact ⟨t, (subset_note node e).2 ht, hkey⟩
    · exact note_lookups hallowed hasks
  · rcases hmem hstarted with hstarted | ⟨-, hasks⟩
    · rcases hmem hfound with hfound | hnow
      · exact h.found id value hfound n key hstarted
      · exact htold.honest id value hnow n key hstarted
    · -- The query is new, so nothing was found for it.
      rcases hmem hfound with hfound | hnow
      · exact absurd rfl (htold.fresh id (starts_of_asks hasks) _ hfound)
      · rw [show e.event blake3 = .foundRecord id value from hnow] at hasks
        cases hasks

/-- What is known of a node, given what was put on the DHT. -/
structure Known (blake3 : List UInt8 → Key) (put : Set (Key × Value))
    (node : Libp2pNode Peer Addr Key Query) : Prop where
  sound : node.swarm.Sound
  faithful : Faithful blake3 put node

theorem Known.start : Known blake3 put ({} : Libp2pNode Peer Addr Key Query) where
  sound := .start
  faithful := by
    refine ⟨fun n t h => ?_, fun n t t' h => ?_, fun id n key value h => ?_, fun id n key h => ?_,
      fun id value h => ?_⟩ <;> cases h

theorem Known.step (h : Known blake3 put node) (htold : Told blake3 put node e)
    (hs : node.step blake3 e = some node') : Known blake3 put node' where
  sound := by
    obtain ⟨-, -, rfl⟩ := step_eq_some.mp hs
    exact h.sound.turn htold.fresh
  faithful := h.faithful.step htold hs

end Libp2pNode

section Swarm

variable {Name : Type} [DecidableEq Name] [DecidableEq Query]

/-- A run of a swarm: one node acts at a time, and the DHT returns what some node has put there. -/
abbrev SwarmRun (blake3 : List UInt8 → Key) (es : List (Name × NodeEvent Peer Addr Key Query))
    (net : Name → Libp2pNode Peer Addr Key Query) : Prop :=
  Run (family (Libp2pNode.step blake3))
    (fun net e => Libp2pNode.Told blake3 (allSaid Libp2pNode.said net) (net e.1) e.2)
    (fun _ => {}) es net

variable {blake3 : List UInt8 → Key} {es : List (Name × NodeEvent Peer Addr Key Query)}
  {net : Name → Libp2pNode Peer Addr Key Query}

theorem SwarmRun.known (hrun : SwarmRun blake3 es net) (i : Name) :
    Libp2pNode.Known blake3 (allSaid Libp2pNode.said net) (net i) :=
  Run.heard (I := Libp2pNode.Known blake3) (fun _ _ _ hs => Libp2pNode.said_step hs)
    (fun _ _ _ hput h => ⟨h.sound, h.faithful.mono hput⟩)
      (fun _ _ _ _ h htold hs => h.step htold hs)
    (fun _ => .start) hrun i

private theorem lookup_finds_announced (hblake3 : Function.Injective blake3)
    (hrun : SwarmRun blake3 es net)
    {i : Name} {n : Nat} {t : Topic} (hcall : (n, t) ∈ (net i).lookups) {values : List Value}
    (hreply : .replied n (.records (.ok values)) ∈ (net i).swarm.history) {v : Value}
    (hv : v ∈ values) :
    ∃ j m a, (m, a) ∈ (net j).announced ∧ a.topic = t ∧ a.value = v := by
  have hknown := hrun.known i
  obtain ⟨later, earlier, hhist⟩ := List.mem_iff_append.mp hreply
  obtain ⟨id, key, hstarted, htold⟩ := hknown.sound.tracks.own later earlier n (.ok values) hhist
  have hearlier : earlier ⊆ (net i).swarm.history := by
    rw [hhist]
    exact List.subset_append_of_subset_right _ (List.subset_cons_self _ _)
  have hfound : .found id v ∈ (net i).swarm.history := by
    obtain rfl : values = Driver.foundFor id earlier := htold.1
    obtain ⟨o, ho, hov⟩ := List.mem_filterMap.mp (List.mem_reverse.mp hv)
    cases o with
    | found id' value =>
        obtain ⟨rfl, hvalue⟩ := Option.ite_none_right_eq_some.mp hov
        obtain rfl := Option.some.inj hvalue
        exact hearlier ho
    | asked | identified | started | failed | ended | replied | gaveUp | lost => cases hov
  have hput := hknown.faithful.found id v hfound n key (hearlier hstarted)
  obtain ⟨j, id', m, hannounced⟩ := Set.mem_iUnion.mp hput
  obtain ⟨a, ha, hkey, hvalue⟩ := (hrun.known j).faithful.announcing id' m key v hannounced
  obtain ⟨t', ht', hkey'⟩ := hknown.faithful.looking id n key (hearlier hstarted)
  obtain rfl := hknown.faithful.single n t t' hcall ht'
  exact ⟨j, m, a, ha, key_injective hblake3 (hkey.trans hkey'.symm), hvalue⟩

def Libp2pNode.Replied (node : Libp2pNode Peer Addr Key Query) (t : Topic)
    (reply : Except String (List Value)) : Prop :=
  ∀ values, reply = .ok values →
    ∃ n, (n, t) ∈ node.lookups ∧ .replied n (.records (.ok values)) ∈ node.swarm.history

def Announced (net : Name → Libp2pNode Peer Addr Key Query) (a : Announcement) : Prop :=
  ∃ j n, (n, a) ∈ (net j).announced

structure ReadsBack (rd : RecordReader) (net : Name → Libp2pNode Peer Addr Key Query) : Prop where
  record : ∀ cid start stop r, Announced net (.shard cid start stop r) → rd.record r.encode = some r
  envelope : ∀ env, Announced net (.model env) → rd.envelope env.encode = some env

variable {rd : RecordReader} {i : Name} {reply : Except String (List Value)}

theorem providers_announced (hblake3 : Function.Injective blake3) (hrun : SwarmRun blake3 es net)
    (hread : ReadsBack rd net) {cid : String} {start stop : UInt16}
    (hreplied : (net i).Replied (.shard cid start stop) reply) {p : ProviderRecord}
    (hp : p ∈ (findShardProviders rd reply).toOption.getD []) :
    Announced net (.shard cid start stop p) := by
  cases reply with
  | error e => cases hp
  | ok values =>
      obtain ⟨v, hv, hvp⟩ := List.mem_filterMap.mp hp
      obtain ⟨n, hcall, hreply⟩ := hreplied values rfl
      obtain ⟨j, m, a, ha, htopic, rfl⟩ := lookup_finds_announced hblake3 hrun hcall hreply hv
      cases a with
      | shard cid' start' stop' record =>
          obtain ⟨rfl, rfl, rfl⟩ := Topic.shard.inj htopic
          have hback := hread.record _ _ _ _ ⟨j, m, ha⟩
          obtain rfl : p = record := Option.some.inj (hvp.symm.trans hback)
          exact ⟨j, m, ha⟩
      | model env => cases htopic

private theorem envelope_announced (hblake3 : Function.Injective blake3)
    (hrun : SwarmRun blake3 es net)
    (hread : ReadsBack rd net) {cid : String} (hreplied : (net i).Replied (.model cid) reply)
    {env : ModelEnvelope} (henv : (fetchModelEnvelope rd reply).toOption.getD none = some env) :
    env.cid = cid ∧ Announced net (.model env) := by
  cases reply with
  | error e => cases henv
  | ok values =>
      have hfind : values.findSome? rd.envelope = some env := henv
      obtain ⟨v, hv, hvenv⟩ := List.exists_of_findSome?_eq_some hfind
      obtain ⟨n, hcall, hreply⟩ := hreplied values rfl
      obtain ⟨j, m, a, ha, htopic, rfl⟩ := lookup_finds_announced hblake3 hrun hcall hreply hv
      cases a with
      | shard cid' start' stop' record => cases htopic
      | model env' =>
          have hback := hread.envelope _ ⟨j, m, ha⟩
          obtain rfl : env = env' := Option.some.inj (hvenv.symm.trans hback)
          exact ⟨Topic.model.inj htopic, j, m, ha⟩

/-- A refreshed view of a model lists under each range what was announced for exactly that range,
and its envelope was announced under its own content id. -/
theorem refreshOne_announced (hblake3 : Function.Injective blake3) (hrun : SwarmRun blake3 es net)
    (hread : ReadsBack rd net) {cid : String} {model : Except String (List Value)}
    {shards : List ((UInt16 × UInt16) × Except String (List Value))}
    (hmodel : (net i).Replied (.model cid) model)
    (hshards : ∀ x ∈ shards, (net i).Replied (.shard cid x.1.1 x.1.2) x.2) :
    (∀ r ∈ (refreshOne rd cid model shards).ranges, ∀ p ∈ r.providers,
        Announced net (.shard cid r.start r.stop p)) ∧
      ∀ env, (refreshOne rd cid model shards).envelope = some env →
        env.cid = cid ∧ Announced net (.model env) := by
  refine ⟨fun r hr p hp => ?_, fun env henv => envelope_announced hblake3 hrun hread hmodel henv⟩
  obtain ⟨x, hx, rfl⟩ := List.mem_map.mp hr
  exact providers_announced hblake3 hrun hread (hshards x hx) hp

end Swarm

/-! A swarm of two nodes. -/

def sampleRecord : ProviderRecord := ⟨"12D3KooW", [], none, none, some "10.0.0.7:7717", 1⟩

def sampleShard : Announcement := .shard "qwen" 0 8 sampleRecord

def sampleEnvelope : ModelEnvelope := ⟨"qwen", "Qwen", "qwen2", 24, 0, "Q4_K_M"⟩

def sampleModel : Announcement := .model sampleEnvelope

/-- The second node announces a model and a slice of it, and the first one looks both up. -/
def announcedThenFound : List (Bool × NodeEvent Nat Nat (List UInt8) Nat) :=
  [(true, .announce sampleModel (.ok 0)), (true, .announce sampleShard (.ok 1)),
    (false, .lookup sampleModel.topic 0), (false, .lookup sampleShard.topic 1),
    (false, .swarm (.foundRecord 0 sampleModel.value)),
    (false, .swarm (.foundRecord 1 sampleShard.value)),
    (false, .swarm (.finishedWithNoAdditionalRecord 0 true)),
    (false, .swarm (.finishedWithNoAdditionalRecord 1 true))]

theorem announcedThenFound_run : ∃ net : Bool → Libp2pNode Nat Nat (List UInt8) Nat,
    SwarmRun id announcedThenFound net ∧
      (net true).announced = [(1, sampleShard), (0, sampleModel)] ∧
      (net false).announced = [] ∧
      (net false).lookups = [(1, sampleShard.topic), (0, sampleModel.topic)] ∧
      .replied 0 (.records (.ok [sampleModel.value])) ∈ (net false).swarm.history ∧
      .replied 1 (.records (.ok [sampleShard.value])) ∈ (net false).swarm.history := by
  have hstart : SwarmRun id [] fun _ : Bool => ({} : Libp2pNode Nat Nat (List UInt8) Nat) := .nil
  have hmodel := hstart.snoc (e := (true, .announce sampleModel (.ok 0)))
    ⟨fun _ _ _ ho => (by cases ho), fun _ _ heq => (by cases heq)⟩
    (family_eq_some.mpr ⟨_, rfl, rfl⟩)
  have hshard := hmodel.snoc (e := (true, .announce sampleShard (.ok 1)))
    (by
      refine ⟨fun id heq o ho => ?_, fun _ _ heq => (by cases heq)⟩
      obtain rfl := Option.some.inj heq
      obtain rfl := List.mem_singleton.mp ho
      exact nofun)
    (family_eq_some.mpr ⟨_, rfl, rfl⟩)
  have hasked := hshard.snoc (e := (false, .lookup sampleModel.topic 0))
    ⟨fun _ _ _ ho => (by cases ho), fun _ _ heq => (by cases heq)⟩
    (family_eq_some.mpr ⟨_, rfl, rfl⟩)
  have hboth := hasked.snoc (e := (false, .lookup sampleShard.topic 1))
    (by
      refine ⟨fun id heq o ho => ?_, fun _ _ heq => (by cases heq)⟩
      obtain rfl := Option.some.inj heq
      obtain rfl := List.mem_singleton.mp ho
      exact nofun)
    (family_eq_some.mpr ⟨_, rfl, rfl⟩)
  have hfoundModel := hboth.snoc (e := (false, .swarm (.foundRecord 0 sampleModel.value)))
    (by
      refine ⟨fun _ heq => (by cases heq), fun id value heq n key hstarted => ?_⟩
      obtain ⟨rfl, rfl⟩ := SwarmEvent.foundRecord.inj heq
      rcases List.mem_cons.mp hstarted with hother | hstarted
      · cases (Observation.started.inj hother).1
      obtain ⟨-, -, hkey⟩ := Observation.started.inj (List.mem_singleton.mp hstarted)
      obtain rfl := Request.getShardProviders.inj hkey
      exact Set.mem_iUnion.mpr ⟨true, 0, 0, List.mem_cons_of_mem _ List.mem_cons_self⟩)
    (family_eq_some.mpr ⟨_, rfl, rfl⟩)
  have hfoundShard := hfoundModel.snoc (e := (false, .swarm (.foundRecord 1 sampleShard.value)))
    (by
      refine ⟨fun _ heq => (by cases heq), fun id value heq n key hstarted => ?_⟩
      obtain ⟨rfl, rfl⟩ := SwarmEvent.foundRecord.inj heq
      have hhistory : Observation.started 1 n (.getShardProviders key) ∈
          [.found 0 sampleModel.value, .started 1 1 (.getShardProviders (sampleShard.topic.key id)),
            .started 0 0 (.getShardProviders (sampleModel.topic.key id))] := hstarted
      simp only [List.mem_cons, reduceCtorEq, Observation.started.injEq,
        List.not_mem_nil] at hhistory
      obtain ⟨-, -, hkey⟩ := hhistory.resolve_left nofun |>.resolve_right (by simp)
      obtain rfl := Request.getShardProviders.inj hkey
      exact Set.mem_iUnion.mpr ⟨true, 1, 1, List.mem_cons_self⟩)
    (family_eq_some.mpr ⟨_, rfl, rfl⟩)
  have hendedModel :=
    hfoundShard.snoc (e := (false, .swarm (.finishedWithNoAdditionalRecord 0 true)))
    ⟨fun _ heq => (by cases heq), fun _ _ heq => (by cases heq)⟩
    (family_eq_some.mpr ⟨_, rfl, rfl⟩)
  have hended := hendedModel.snoc (e := (false, .swarm (.finishedWithNoAdditionalRecord 1 true)))
    ⟨fun _ heq => (by cases heq), fun _ _ heq => (by cases heq)⟩
    (family_eq_some.mpr ⟨_, rfl, rfl⟩)
  exact ⟨_, hended, rfl, rfl, rfl,
    List.mem_cons_of_mem _ (List.mem_cons_of_mem _ List.mem_cons_self), List.mem_cons_self⟩

def sampleReader : RecordReader where
  record v := if v = sampleRecord.encode then some sampleRecord else none
  envelope v := if v = sampleEnvelope.encode then some sampleEnvelope else none

theorem sampleReader_readsBack {net : Bool → Libp2pNode Nat Nat (List UInt8) Nat}
    (htrue : (net true).announced = [(1, sampleShard), (0, sampleModel)])
    (hfalse : (net false).announced = []) : ReadsBack sampleReader net := by
  have hall : ∀ a, Announced net a → a = sampleShard ∨ a = sampleModel := by
    rintro a ⟨j, n, ha⟩
    cases j with
    | true =>
        rw [htrue] at ha
        rcases List.mem_cons.mp ha with heq | ha
        · exact .inl (Prod.mk.inj heq).2
        · exact .inr (Prod.mk.inj (List.mem_singleton.mp ha)).2
    | false =>
        rw [hfalse] at ha
        cases ha
  refine ⟨fun cid start stop r ha => ?_, fun env ha => ?_⟩
  · rcases hall _ ha with heq | heq
    · obtain ⟨-, -, -, rfl⟩ := Announcement.shard.inj heq
      change (if sampleRecord.encode = sampleRecord.encode then some sampleRecord else none) = _
      rw [if_pos rfl]
    · cases heq
  · rcases hall _ ha with heq | heq
    · cases heq
    · obtain rfl := Announcement.model.inj heq
      change (if sampleEnvelope.encode = sampleEnvelope.encode then some sampleEnvelope else none) =
        _
      rw [if_pos rfl]

def sampleView : SwarmModel :=
  refreshOne sampleReader "qwen" (.ok [sampleModel.value]) [((0, 8), .ok [sampleShard.value])]

theorem sampleView_eq : sampleView = ⟨"qwen", some sampleEnvelope, [⟨0, 8, [sampleRecord]⟩]⟩ := by
  have hrecord : sampleReader.record sampleShard.value = some sampleRecord := by
    change (if sampleRecord.encode = sampleRecord.encode then some sampleRecord else none) = _
    rw [if_pos rfl]
  have henvelope : sampleReader.envelope sampleModel.value = some sampleEnvelope := by
    change (if sampleEnvelope.encode = sampleEnvelope.encode then some sampleEnvelope else none) = _
    rw [if_pos rfl]
  have hlist : [sampleShard.value].filterMap sampleReader.record = [sampleRecord] := by
    rw [List.filterMap_cons_some hrecord, List.filterMap_nil]
  have hfirst : [sampleModel.value].findSome? sampleReader.envelope = some sampleEnvelope := by
    rw [List.findSome?_cons, henvelope]
  change SwarmModel.mk "qwen" ([sampleModel.value].findSome? sampleReader.envelope)
    [RangeCoverage.mk 0 8 ([sampleShard.value].filterMap sampleReader.record)] = _
  rw [hlist, hfirst]

theorem replied_sample {node : Libp2pNode Nat Nat (List UInt8) Nat} {n : Nat} {t : Topic}
    {values : List Value} (hlookup : (n, t) ∈ node.lookups)
    (hreply : .replied n (.records (.ok values)) ∈ node.swarm.history) :
    node.Replied t (.ok values) := by
  intro values' heq
  obtain rfl := Except.ok.inj heq
  exact ⟨n, hlookup, hreply⟩

theorem refreshOne_announced_sample : ∃ net : Bool → Libp2pNode Nat Nat (List UInt8) Nat,
    SwarmRun id announcedThenFound net ∧
      sampleView = ⟨"qwen", some sampleEnvelope, [⟨0, 8, [sampleRecord]⟩]⟩ ∧
      Announced net (.shard "qwen" 0 8 sampleRecord) ∧ Announced net (.model sampleEnvelope) := by
  obtain ⟨net, hrun, htrue, hfalse, hlookups, hmodel, hshard⟩ := announcedThenFound_run
  have hfirst : (0, sampleModel.topic) ∈ (net false).lookups := by
    rw [hlookups]
    exact List.mem_cons_of_mem _ List.mem_cons_self
  have hsecond : (1, sampleShard.topic) ∈ (net false).lookups := by
    rw [hlookups]
    exact List.mem_cons_self
  have hmodel : (net false).Replied (.model "qwen") (.ok [sampleModel.value]) :=
    replied_sample hfirst hmodel
  have hshards : ∀ x ∈ [(((0 : UInt16), (8 : UInt16)), Except.ok [sampleShard.value])],
      (net false).Replied (.shard "qwen" x.1.1 x.1.2) x.2 := by
    intro x hx
    obtain rfl := List.mem_singleton.mp hx
    exact replied_sample hsecond hshard
  obtain ⟨hranges, henvelope⟩ := refreshOne_announced Function.injective_id hrun
    (sampleReader_readsBack htrue hfalse) hmodel hshards
  change ∀ r ∈ sampleView.ranges, _ at hranges
  change ∀ env, sampleView.envelope = some env → _ at henvelope
  rw [sampleView_eq] at hranges henvelope
  exact ⟨net, hrun, sampleView_eq,
    hranges _ (List.mem_singleton_self _) _ (List.mem_singleton_self _), (henvelope _ rfl).2⟩

end IntelNav.Net
