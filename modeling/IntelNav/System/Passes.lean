import IntelNav.Runtime.Rows
import IntelNav.Runtime.Splits
import IntelNav.System.Hops
import IntelNav.Wire.Delimited

/-! Steps of a chain over rows: what the slices behind the hops hold after some tokens, and what a
step for more tokens makes of it. -/

set_option autoImplicit false
set_option relaxedAutoImplicit false

namespace IntelNav.System

open IntelNav.App IntelNav.Core IntelNav.Decoding IntelNav.Ggml IntelNav.Runtime IntelNav.Stream
open IntelNav.Wire

variable {Addr F E K : Type}

section Wire

variable [F32 F] (dtype : Dtype)

def overWire (x : Hidden F) : Hidden F :=
  match x.shape with
  | [b, s, h] =>
      ⟨((List.range (b * s)).map fun r => wireRow dtype (rowSlice x.data h r)).flatten, x.shape⟩
  | _ => x

def wireRows (rows : List (List F)) : List (List F) := rows.map (wireRow dtype)

variable {dtype}

private theorem width_wireRows {rows : List (List F)} {w : Nat} (hrows : ∀ r ∈ rows, r.length = w) :
    ∀ r ∈ wireRows dtype rows, r.length = w := by
  intro r hr
  obtain ⟨r', hr', rfl⟩ := List.mem_map.mp hr
  rw [length_wireRow, hrows r' hr']

private theorem overWire_ofRows {rows : List (List F)} {w : Nat}
    (hrows : ∀ r ∈ rows, r.length = w) :
    overWire dtype (ofRows w rows) = ofRows w (wireRows dtype rows) := by
  have hmap : (List.range rows.length).map (fun r => wireRow dtype (rowSlice rows.flatten w r)) =
      wireRows dtype rows := by
    rw [wireRows]
    conv_rhs => rw [← map_rowSlice_flatten hrows]
    rw [List.map_map]
    rfl
  simp only [overWire, ofRows, Nat.one_mul, hmap, wireRows, List.length_map]

private theorem later_wireRows {G : List UInt32 → List (List F)} (hG : Causal G)
    (ts ids : List UInt32) :
    wireRows dtype (later G ts ids) = later (fun ts => wireRows dtype (G ts)) ts ids :=
  ((hG.later_comp ts ids).trans (Causal.later_map (wireRow dtype) _ _)).symm

private theorem Sent.eq_overWire {cd : Codec} {session : SessionId} {seq : Nat} {phase : Phase}
    {keep : Option UInt32} {rows : List (List F)} {w : Nat} {x' : Hidden F}
    (hrows : ∀ r ∈ rows, r.length = w)
    (h : Sent cd dtype session seq phase keep (ofRows w rows) x') :
    x' = overWire dtype (ofRows w rows) := by
  obtain ⟨b, s, n, p, hshape, henc, hdec, hshape', -⟩ := h
  obtain ⟨hb, hs, hn⟩ : 1 = b.toNat ∧ rows.length = s.toNat ∧ w = n.toNat := by
    simpa [ofRows] using hshape
  obtain ⟨hdtype, hpshape, -⟩ := length_encodeHiddenWith henc
  obtain ⟨-, hvalues, hcase⟩ := decodeHidden_eq_ok.mp hdec
  rw [hpshape] at hvalues hcase
  have hscales : dtype = .int8 → b.toNat * s.toNat * 4 ≤ isizeMax := by
    intro hint
    rcases hcase with ⟨hfp, -⟩ | ⟨-, hscales, -⟩
    · rw [hdtype, hint] at hfp
      cases hfp
    · exact hscales
  have hlen : rows.length = (⟨b, s, n⟩ : Shape3).batch.toNat * (⟨b, s, n⟩ : Shape3).seq.toNat := by
    rw [← hb, Nat.one_mul, hs]
  have hout := decodeHidden_encodeHiddenWith hlen (fun r hr => (hrows r hr).trans hn) henc hvalues
    hscales
  rw [hdec] at hout
  obtain ⟨data, shape⟩ := x'
  rw [overWire_ofRows hrows]
  obtain rfl : data = _ := (Prod.mk.inj (Except.ok.inj hout)).2
  obtain rfl : shape = _ := hshape'
  simp [ofRows, wireRows]

private theorem dims_of_encoded {rows : List (List F)} {w : Nat} {p : HiddenPayload}
    (hrows : ∀ r ∈ rows, r.length = w) (hne : rows ≠ []) (hw : 0 < w)
    (henc : encodeHiddenWith (ofRows w rows).data
      ⟨UInt32.ofNat 1, UInt32.ofNat rows.length, UInt32.ofNat w⟩ dtype = .ok p) :
    (ofRows w rows).shape =
      [(1 : UInt32).toNat, (UInt32.ofNat rows.length).toNat, (UInt32.ofNat w).toNat] := by
  have hlen := (encodeHiddenWith_eq_ok.mp henc).2.1
  have hpos := List.length_pos_iff.mpr hne
  rw [ofRows, flatten_length_of_rows hrows] at hlen
  simp only [UInt32.toNat_ofNat', Nat.one_mod_two_pow_eq_one.mpr (by decide : 0 < 32),
    Nat.one_mul] at hlen
  have hs := Nat.mod_le rows.length (2 ^ 32)
  have hn := Nat.mod_le w (2 ^ 32)
  have hs' : rows.length % 2 ^ 32 = rows.length := by
    refine le_antisymm hs (Nat.le_of_mul_le_mul_right (c := w) ?_ hw)
    calc rows.length * w = rows.length % 2 ^ 32 * (w % 2 ^ 32) := hlen
      _ ≤ rows.length % 2 ^ 32 * w := Nat.mul_le_mul_left _ hn
  have hn' : w % 2 ^ 32 = w := by
    refine le_antisymm hn (Nat.le_of_mul_le_mul_left (c := rows.length) ?_ hpos)
    rw [hs'] at hlen
    exact hlen.le
  simp only [ofRows, UInt32.toNat_ofNat', hs', hn']
  rfl

end Wire

section Caught

variable [F32 F] (dtype : Dtype) (g : RowModel F E) (layer : K → Nat → List E)

/-- What the hops make of rows: each hop's come over the wire, and what it makes of them goes
back over it. -/
def acrossLegs : List LayerRange → List (List F) → List (List F)
  | [], rows => rows
  | r :: rs, rows =>
      acrossLegs rs
        (wireRows dtype (g.through r.start.toNat r.stop.toNat (wireRows dtype rows)))

/-- The caches behind the hops hold the rows, and nothing else, after `n` steps. -/
def Caught (n : Nat) : List (List F) → List (Hop Addr K) → Prop
  | _, [] => True
  | rows, h :: hs =>
      (h.link.seq = n ∧ h.pos = rows.length ∧
        ∀ i, h.link.layers.start.toNat ≤ i → i < h.link.layers.stop.toNat →
          layer h.kv i = g.cached h.link.layers.start.toNat (wireRows dtype rows) i) ∧
      Caught n (wireRows dtype
        (g.through h.link.layers.start.toNat h.link.layers.stop.toNat (wireRows dtype rows))) hs

variable {dtype g layer}

private theorem causal_wired {G : List UInt32 → List (List F)} (hG : Causal G) :
    Causal fun ts => wireRows dtype (G ts) := hG.comp (.map (wireRow dtype))

theorem causal_acrossLegs {G : List UInt32 → List (List F)} (hG : Causal G)
    (rs : List LayerRange) : Causal fun ts => acrossLegs dtype g rs (G ts) := by
  induction rs generalizing G with
  | nil => exact hG
  | cons r rs ih => exact ih (causal_wired ((causal_wired hG).comp (RowModel.causal_through _ _)))

theorem width_acrossLegs {rs : List LayerRange} {rows : List (List F)}
    (hrows : ∀ r ∈ rows, r.length = g.width) :
    ∀ r ∈ acrossLegs dtype g rs rows, r.length = g.width := by
  induction rs generalizing rows with
  | nil => exact hrows
  | cons r rs ih => exact ih (width_wireRows (RowModel.width_through (width_wireRows hrows)))

theorem caught_nil {hs : List (Hop Addr K)}
    (h : ∀ a ∈ hs, a.link.seq = 0 ∧ a.pos = 0 ∧ ∀ i, layer a.kv i = []) :
    Caught dtype g layer 0 [] hs := by
  induction hs with
  | nil => trivial
  | cons a hs ih =>
      obtain ⟨hseq, hpos, hempty⟩ := h a List.mem_cons_self
      refine ⟨⟨hseq, hpos, fun i _ _ => ?_⟩, ?_⟩
      · rw [hempty, wireRows, List.map_nil, RowModel.cached_nil]
      · rw [wireRows, wireRows, List.map_nil, RowModel.through_nil, List.map_nil]
        exact ih fun b hb => h b (List.mem_cons_of_mem a hb)

theorem Caught.lengths {n : Nat} {rows : List (List F)} {hs : List (Hop Addr K)}
    (h : Caught dtype g layer n rows hs) : ∀ a ∈ hs, a.pos = rows.length ∧
      ∀ i, a.link.layers.start.toNat ≤ i → i < a.link.layers.stop.toNat →
        (layer a.kv i).length = rows.length := by
  induction hs generalizing rows with
  | nil => simp
  | cons b hs ih =>
      obtain ⟨⟨-, hpos, hcached⟩, hrest⟩ := h
      intro a ha
      rcases List.mem_cons.mp ha with rfl | ha
      · refine ⟨hpos, fun i hi hi' => ?_⟩
        rw [hcached i hi hi', RowModel.length_cached, wireRows, List.length_map]
      · have hlen : (wireRows dtype (g.through b.link.layers.start.toNat b.link.layers.stop.toNat
            (wireRows dtype rows))).length = rows.length := by
          rw [wireRows, List.length_map, RowModel.length_through, wireRows, List.length_map]
        rw [← hlen]
        exact ih hrest a ha

/-- The entries a step keeps of what the caches hold: all of it, or that of the first tokens. -/
def Keeps (keep : Option UInt32) (ts us : List UInt32) : Prop :=
  match keep with
  | none => us = []
  | some n => n.toNat = ts.length

variable {m : Pipelined F K} {room : Nat}

omit [F32 F] in
private theorem feed_caught (hm : Computes m layer g room) {G : List UInt32 → List (List F)}
    (hG : Causal G) (hwidth : ∀ ts, ∀ r ∈ G ts, r.length = g.width) {h h' : Hop Addr K}
    {y : Hidden F} {keep : Option UInt32} {ts us ids : List UInt32}
    (hle : h.link.layers.start.toNat ≤ h.link.layers.stop.toNat)
    (hblocks : h.link.layers.stop.toNat ≤ g.blocks) (hkeep : Keeps keep ts us)
    (hroom : (ts ++ us).length ≤ room) (hpos : h.pos = (ts ++ us).length)
    (hcached : ∀ i, h.link.layers.start.toNat ≤ i → i < h.link.layers.stop.toNat →
      layer h.kv i = g.cached h.link.layers.start.toNat (G (ts ++ us)) i)
    (hfeed : h.feed m keep (ofRows g.width (later G ts ids)) = some (y, h')) :
    y = ofRows g.width (later (fun ts => g.through h.link.layers.start.toNat
        h.link.layers.stop.toNat (G ts)) ts ids) ∧
      h'.pos = (ts ++ ids).length ∧
      ∀ i, h.link.layers.start.toNat ≤ i → i < h.link.layers.stop.toNat →
        layer h'.kv i = g.cached h.link.layers.start.toNat (G (ts ++ ids)) i := by
  have hseq : (ofRows g.width (later G ts ids)).shape.getD 1 0 = ids.length :=
    hG.length_later ts ids
  cases keep with
  | none =>
      obtain rfl : us = [] := hkeep
      rw [List.append_nil] at hpos hcached
      simp only [Hop.feed, hpos] at hfeed
      split at hfeed
      · rename_i z kv hrun
        obtain ⟨rfl, rfl⟩ := Prod.mk.inj (Option.some.inj hfeed)
        obtain ⟨hy, hkept, -, -⟩ := hm.range_later hG hwidth hle hblocks hcached hrun
        exact ⟨hy, by rw [hseq, List.length_append], hkept⟩
      · cases hfeed
  | some n =>
      have hn : n.toNat = ts.length := hkeep
      have hnroom : n.toNat ≤ room := by
        rw [List.length_append] at hroom
        omega
      simp only [Hop.feed] at hfeed
      split at hfeed
      · rename_i kv htrunc
        have htake := hm.truncateKvTo n.toNat h.kv kv hnroom htrunc
        have hcached' : ∀ i, h.link.layers.start.toNat ≤ i → i < h.link.layers.stop.toNat →
            layer kv i = g.cached h.link.layers.start.toNat (G ts) i := by
          intro i hi hi'
          rw [htake i, hcached i hi hi', hn, hG.append_later, ← hG.length_eq ts,
            RowModel.take_cached]
        split at hfeed
        · rename_i z kv' hrun
          obtain ⟨rfl, rfl⟩ := Prod.mk.inj (Option.some.inj hfeed)
          rw [hn] at hrun
          obtain ⟨hy, hkept, -, -⟩ := hm.range_later hG hwidth hle hblocks hcached' hrun
          exact ⟨hy, by rw [hseq, hn, List.length_append], hkept⟩
        · cases hfeed
      · cases hfeed

/-- The layers of all hops go on from the tokens kept. -/
theorem feedAll_caught (hm : Computes m layer g room) {hs hs' : List (Hop Addr K)}
    {G : List UInt32 → List (List F)} (hG : Causal G)
    (hwidth : ∀ ts, ∀ r ∈ G ts, r.length = g.width) {s e n : Nat} {z : Hidden F}
    {keep : Option UInt32} {ts us ids : List UInt32}
    (hspans : Spans s (hs.map fun h => h.link.layers) e) (he : e ≤ g.blocks)
    (hkeep : Keeps keep ts us) (hroom : (ts ++ us).length ≤ room)
    (hcaught : Caught dtype g layer n (G (ts ++ us)) hs)
    (hfeed : feedAll m keep (overWire dtype) hs (ofRows g.width (later G ts ids)) =
      some (z, hs')) :
    z = ofRows g.width (later (fun ts => acrossLegs dtype g (hs.map fun h => h.link.layers) (G ts))
        ts ids) ∧
      Caught dtype g layer (n + 1) (G (ts ++ ids)) hs' := by
  induction hs generalizing G s hs' with
  | nil =>
      obtain ⟨rfl, rfl⟩ := Prod.mk.inj (Option.some.inj hfeed)
      exact ⟨rfl, trivial⟩
  | cons h hs ih =>
      obtain ⟨hstart, hlt, hrest⟩ := hspans
      obtain ⟨⟨hseq, hpos, hcached⟩, hcaught⟩ := hcaught
      rw [feedAll, overWire_ofRows (Causal.forall_mem_later hwidth ts ids),
        later_wireRows hG] at hfeed
      split at hfeed
      · cases hfeed
      rename_i y h' hhop
      obtain ⟨⟨z', hs₁⟩, hrun, heq⟩ := Option.map_eq_some_iff.mp hfeed
      obtain ⟨rfl, rfl⟩ := Prod.mk.inj heq
      obtain ⟨hy, hpos', hcached'⟩ := feed_caught hm (causal_wired hG)
        (fun ts => width_wireRows (hwidth ts)) (hstart.le.trans hlt.le) (hrest.le.trans he) hkeep
        hroom (by rw [hpos, hG.length_eq]) hcached hhop
      obtain ⟨hlink, -⟩ := Hop.feed_link hhop
      have hG' : Causal fun ts => g.through h.link.layers.start.toNat h.link.layers.stop.toNat
          (wireRows dtype (G ts)) := (causal_wired hG).comp (RowModel.causal_through _ _)
      have hwidth' : ∀ ts, ∀ r ∈ g.through h.link.layers.start.toNat h.link.layers.stop.toNat
          (wireRows dtype (G ts)), r.length = g.width := fun ts =>
        RowModel.width_through (width_wireRows (hwidth ts))
      rw [hy, overWire_ofRows (Causal.forall_mem_later hwidth' ts ids), later_wireRows hG'] at hrun
      obtain ⟨hz, hcaught'⟩ := ih (causal_wired hG') (fun ts => width_wireRows (hwidth' ts)) hrest
        hcaught hrun
      refine ⟨hz, ⟨?_, ?_, ?_⟩, ?_⟩
      · rw [hlink, ← hseq]
      · rw [hpos', hG.length_eq]
      · rw [hlink]
        exact hcached'
      · rw [hlink]
        exact hcaught'

end Caught

section Steps

variable [F32 F] [DecidableEq Addr] {dtype : Dtype} {g : RowModel F E} {layer : K → Nat → List E}
  {m : Pipelined F K} {room : Nat} {cd : Codec} {cut : Nat → List UInt8 → List (List UInt8)}

private theorem sent_of_hop (hcd : cd.RoundTrips) (hcut : Cuts cut) {w w' : Peers Addr F K}
    {h : Hop Addr K} (hatt : Attached m w h) {phase : Phase} {keep : Option UInt32}
    {rows : List (List F)} (hrows : ∀ r ∈ rows, r.length = g.width) (hne : rows ≠ [])
    (hfeed : ∀ y h', h.feed m keep (overWire dtype (ofRows g.width rows)) = some (y, h') →
      ∃ rows', y = ofRows g.width rows' ∧ rows'.length = rows.length ∧
        ∀ r ∈ rows', r.length = g.width)
    {index : Nat} {y' : Hidden F} {link' : Link Addr Nat}
    (hhop : h.link.hop (peersNet cd cut) cd dtype phase keep index (ofRows g.width rows) w =
      (.ok y', link', w')) :
    Sent cd dtype h.link.session (h.link.seq + 1) phase keep (ofRows g.width rows)
        (overWire dtype (ofRows g.width rows)) ∧
      ∃ y h', h.feed m keep (overWire dtype (ofRows g.width rows)) = some (y, h') ∧
        Sent cd dtype h.link.session (h.link.seq + 1) .decode none y (overWire dtype y) := by
  cases henc : encodeHiddenWith (ofRows g.width rows).data
      ⟨UInt32.ofNat 1, UInt32.ofNat rows.length, UInt32.ofNat g.width⟩ dtype with
  | error e =>
      simp only [Link.hop, ofRows] at hhop henc
      rw [henc] at hhop
      cases (Prod.mk.inj hhop).1
  | ok p =>
      have hshape := dims_of_encoded hrows hne g.width_pos henc
      obtain ⟨x', hsent, y, h', hsome, hreply⟩ := hop_ok hcd hcut hatt hshape hhop
      obtain rfl := hsent.eq_overWire hrows
      obtain ⟨rows', rfl, hlen, hrows'⟩ := hfeed y h' hsome
      obtain ⟨z, hz⟩ := hreply 1 (UInt32.ofNat rows.length) (UInt32.ofNat g.width) (by
        rw [← hshape, ofRows, ofRows, hlen])
      refine ⟨hsent, _, h', hsome, ?_⟩
      rwa [← hz.eq_overWire hrows']

private theorem hops_cons_ok {phase : Phase} {keep : Option UInt32} {index : Nat}
    {link : Link Addr Nat} {links links' : List (Link Addr Nat)} {cur z : Hidden F}
    {w w' : Peers Addr F K}
    (h : hops (peersNet cd cut) cd dtype phase keep index (link :: links) cur w =
      (.ok z, links', w')) :
    ∃ cur₁ link₁ w₁ links₁,
      link.hop (peersNet cd cut) cd dtype phase keep index cur w = (.ok cur₁, link₁, w₁) ∧
      hops (peersNet cd cut) cd dtype phase keep (index + 1) links cur₁ w₁ =
        (.ok z, links₁, w') := by
  rw [hops] at h
  cases hhop : link.hop (peersNet cd cut) cd dtype phase keep index cur w with
  | mk r rest =>
  obtain ⟨link₁, w₁⟩ := rest
  rw [hhop] at h
  cases r with
  | error e => cases (Prod.mk.inj h).1
  | ok cur₁ =>
      dsimp only at h
      cases hlater : hops (peersNet cd cut) cd dtype phase keep (index + 1) links cur₁ w₁ with
      | mk r₁ rest₁ =>
      obtain ⟨links₁, w₂⟩ := rest₁
      rw [hlater] at h
      obtain ⟨rfl, hrest⟩ := Prod.mk.inj h
      obtain ⟨-, rfl⟩ := Prod.mk.inj hrest
      exact ⟨cur₁, link₁, w₁, links₁, rfl, hlater⟩

theorem allSent_of_hops (hcd : cd.RoundTrips) (hcut : Cuts cut) (hm : Computes m layer g room)
    {hs : List (Hop Addr K)} {G : List UInt32 → List (List F)} (hG : Causal G)
    (hwidth : ∀ ts, ∀ r ∈ G ts, r.length = g.width) {s e n : Nat} {keep : Option UInt32}
    {ts us ids : List UInt32} (hspans : Spans s (hs.map fun h => h.link.layers) e)
    (he : e ≤ g.blocks) (hkeep : Keeps keep ts us) (hroom : (ts ++ us).length ≤ room)
    (hids : ids ≠ []) (hcaught : Caught dtype g layer n (G (ts ++ us)) hs)
    {w w' : Peers Addr F K} (hatt : ∀ h ∈ hs, Attached m w h) (hapart : hs.Pairwise Apart)
    {phase : Phase} {index : Nat} {z : Hidden F} {links : List (Link Addr Nat)}
    (hhops : hops (peersNet cd cut) cd dtype phase keep index (hs.map Hop.link)
      (ofRows g.width (later G ts ids)) w = (.ok z, links, w')) :
    AllSent cd dtype m phase keep (overWire dtype) hs (ofRows g.width (later G ts ids)) ∧
      ∃ r, feedAll m keep (overWire dtype) hs (ofRows g.width (later G ts ids)) = some r := by
  induction hs generalizing G s w w' index links with
  | nil => exact ⟨trivial, _, rfl⟩
  | cons h hs ih =>
      obtain ⟨hstart, hlt, hrest⟩ := hspans
      obtain ⟨⟨hseq, hpos, hcached⟩, hcaught⟩ := hcaught
      obtain ⟨hhead, hpair⟩ := List.pairwise_cons.mp hapart
      have hrows := Causal.forall_mem_later hwidth ts ids
      have hne : later G ts ids ≠ [] := by
        rw [← List.length_pos_iff, hG.length_later]
        exact List.length_pos_iff.mpr hids
      have hG' : Causal fun ts => g.through h.link.layers.start.toNat h.link.layers.stop.toNat
          (wireRows dtype (G ts)) := (causal_wired hG).comp (RowModel.causal_through _ _)
      have hwidth' : ∀ ts, ∀ r ∈ g.through h.link.layers.start.toNat h.link.layers.stop.toNat
          (wireRows dtype (G ts)), r.length = g.width := fun ts =>
        RowModel.width_through (width_wireRows (hwidth ts))
      -- What the layers of the hop give is again rows.
      have hfeed : ∀ y h', h.feed m keep (overWire dtype (ofRows g.width (later G ts ids))) =
          some (y, h') → y = ofRows g.width (later (fun ts => g.through
            h.link.layers.start.toNat h.link.layers.stop.toNat (wireRows dtype (G ts)))
              ts ids) := by
        intro y h' hsome
        rw [overWire_ofRows hrows, later_wireRows hG] at hsome
        exact (feed_caught hm (causal_wired hG) (fun ts => width_wireRows (hwidth ts))
          (hstart.le.trans hlt.le) (hrest.le.trans he) hkeep hroom (by rw [hpos, hG.length_eq])
          hcached hsome).1
      rw [List.map_cons] at hhops
      obtain ⟨cur, link₁, w₁, links₂, hhop, hlater⟩ := hops_cons_ok hhops
      obtain ⟨hsent, y, h', hsome, hreply⟩ := sent_of_hop hcd hcut
        (hatt h List.mem_cons_self) hrows hne (fun y h' hsome =>
          ⟨_, hfeed y h' hsome, by rw [hG'.length_later, hG.length_later],
            Causal.forall_mem_later hwidth' ts ids⟩) hhop
      have hy := hfeed y h' hsome
      have htake : y.shape.take 2 = (ofRows g.width (later G ts ids)).shape.take 2 := by
        simp only [hy, ofRows, hG'.length_later, hG.length_later, List.take_succ_cons]
      obtain ⟨w₂, heq, -, hframe⟩ := (hop_spec hcd hcut (hatt h List.mem_cons_self) hsent
        index).2 y h' _ hsome hreply htake
      rw [hhop] at heq
      obtain ⟨hcur, heq⟩ := Prod.mk.inj heq
      obtain ⟨rfl, rfl⟩ := Prod.mk.inj heq
      obtain rfl := Except.ok.inj hcur
      have hy' : overWire dtype y = ofRows g.width (later (fun ts => wireRows dtype
          (g.through h.link.layers.start.toNat h.link.layers.stop.toNat
            (wireRows dtype (G ts)))) ts ids) := by
        rw [hy, overWire_ofRows (Causal.forall_mem_later hwidth' ts ids), later_wireRows hG']
      rw [hy'] at hlater
      obtain ⟨hall, r', hr'⟩ := ih (causal_wired hG') (fun ts => width_wireRows (hwidth' ts))
        hrest hcaught (fun a ha => hframe a (hhead a ha) (hatt a (List.mem_cons_of_mem h ha)))
        hpair hlater
      refine ⟨⟨hsent, fun y₁ h₁ hsome₁ => ?_⟩, ?_⟩
      · rw [hsome] at hsome₁
        obtain ⟨rfl, rfl⟩ := Prod.mk.inj (Option.some.inj hsome₁)
        exact ⟨hreply, htake, by rw [hy']; exact hall⟩
      · rw [← hy'] at hr'
        exact ⟨_, by simp only [feedAll, hsome, hr', Option.map_some]; rfl⟩

end Steps

section Total

variable [F32 F] {dtype : Dtype} {g : RowModel F E} {layer : K → Nat → List E}
  {m : Pipelined F K} {room : Nat} {cd : Codec}

/-- Up to step `seqs` of a session every state of at most `room` rows gets over the wire. -/
def Delivers (cd : Codec) (dtype : Dtype) (F : Type) [F32 F] (w room seqs : Nat)
    (session : SessionId) : Prop :=
  ∀ seq phase keep (rows : List (List F)), seq ≤ seqs → (∀ n, keep = some n → n.toNat ≤ room) →
    rows ≠ [] → rows.length ≤ room → (∀ r ∈ rows, r.length = w) →
      Sent cd dtype session seq phase keep (ofRows w rows) (overWire dtype (ofRows w rows))

private theorem sent_ofRows {session : SessionId} {seq : Nat} {phase : Phase} {keep : Option UInt32}
    {rows : List (List F)} {w : Nat} (hrows : ∀ r ∈ rows, r.length = w)
    (hlen : rows.length < 2 ^ 32) (hw : w < 2 ^ 32) (hvalues : rows.length * w * 4 ≤ isizeMax)
    (hdtype : dtype ≠ .bf16)
    (hscales : dtype = .int8 → rows.length * 4 ≤ isizeMax)
    (hfits : ∀ p, encodeHiddenWith rows.flatten
      ⟨1, UInt32.ofNat rows.length, UInt32.ofNat w⟩ dtype = .ok p →
        cd.Fits (.forwardHidden (carry session seq phase keep p))) :
    Sent cd dtype session seq phase keep (ofRows w rows) (overWire dtype (ofRows w rows)) := by
  have hlen' : (UInt32.ofNat rows.length).toNat = rows.length := UInt32.toNat_ofNat_of_lt' hlen
  have hw' : (UInt32.ofNat w).toNat = w := UInt32.toNat_ofNat_of_lt' hw
  have hbound : rows.length * w < usizeMod := by
    have : isizeMax < usizeMod := by decide
    omega
  obtain ⟨p, henc⟩ : ∃ p, encodeHiddenWith rows.flatten
      ⟨1, UInt32.ofNat rows.length, UInt32.ofNat w⟩ dtype = .ok p := by
    cases dtype with
    | bf16 => exact absurd rfl hdtype
    | fp16 =>
        exact ⟨_, encodeHiddenWith_eq_ok.mpr ⟨by simpa [hlen', hw'] using hbound,
          by simpa [hlen', hw'] using flatten_length_of_rows hrows, .inl ⟨rfl, rfl⟩⟩⟩
    | int8 =>
        exact ⟨_, encodeHiddenWith_eq_ok.mpr ⟨by simpa [hlen', hw'] using hbound,
          by simpa [hlen', hw'] using flatten_length_of_rows hrows, .inr ⟨rfl, rfl⟩⟩⟩
  have hdec := decodeHidden_encodeHiddenWith (by simp [hlen'])
    (fun r hr => (hrows r hr).trans hw'.symm) henc (by simpa [hlen', hw'] using hvalues)
    (by simpa [hlen'] using hscales)
  refine ⟨1, UInt32.ofNat rows.length, UInt32.ofNat w, p, ?_, henc, ?_, ?_, hfits p henc⟩
  · rw [ofRows, hlen', hw']
    rfl
  · rw [overWire_ofRows hrows]
    exact hdec
  · rw [overWire_ofRows hrows, ofRows, ofRows, wireRows, List.length_map]

theorem delivers_chainCodec {f32 : UInt32 → List UInt8} {w room seqs : Nat} (hw : w < 2 ^ 32)
    (hroom : room < 2 ^ 32) (hseqs : seqs < 2 ^ 64) (hfits : 250 + room * w * 4 ≤ maxFrameBytes)
    (session : SessionId) : Delivers (Cbor.chainCodec f32) .fp16 F w room seqs session := by
  intro seq phase keep rows hseq _ _ hlen hrows
  have hmax : maxFrameBytes < isizeMax := by decide
  have hcount : maxFrameBytes < 2 ^ 64 := by decide
  have hle : rows.length * w ≤ room * w := Nat.mul_le_mul_right w hlen
  refine sent_ofRows hrows (by omega) hw (by omega) (by decide) (by simp) fun p hp => ?_
  obtain ⟨-, -, hbytes⟩ := length_encodeHiddenWith hp
  have hbytes : p.bytes.length = 2 * (rows.length * w) := by
    rw [hbytes, payloadLen]
    simp only [UInt32.toNat_ofNat_of_lt' (show rows.length < 2 ^ 32 by omega),
      UInt32.toNat_ofNat_of_lt' hw]
    rw [show (1 : UInt32).toNat = 1 from rfl, Nat.one_mul]
  have hframe := Cbor.length_forward_le (carry session seq phase keep p) rfl
  have hpayload : (carry session seq phase keep p).payload = p.bytes := rfl
  rw [hpayload, hbytes] at hframe
  refine Cbor.chainCodec_fits ⟨lt_of_le_of_lt hseq hseqs, ?_, ?_⟩ (hframe.trans (by omega))
  · rw [hpayload, hbytes]
    omega
  · simp [carry]

omit [F32 F] in
private theorem feed_total (hm : Computes m layer g room) (ht : Unfailing m layer g room)
    {G : List UInt32 → List (List F)} (hG : Causal G)
    (hwidth : ∀ ts, ∀ r ∈ G ts, r.length = g.width) {h : Hop Addr K} {keep : Option UInt32}
    {ts us ids : List UInt32}
    (hle : h.link.layers.start.toNat ≤ h.link.layers.stop.toNat)
    (hblocks : h.link.layers.stop.toNat ≤ g.blocks) (hkeep : Keeps keep ts us)
    (hroom : (ts ++ us).length ≤ room) (hids : ids ≠ []) (hnext : (ts ++ ids).length ≤ room)
    (hpos : h.pos = (ts ++ us).length)
    (hcached : ∀ i, h.link.layers.start.toNat ≤ i → i < h.link.layers.stop.toNat →
      layer h.kv i = g.cached h.link.layers.start.toNat (G (ts ++ us)) i) :
    ∃ r, h.feed m keep (ofRows g.width (later G ts ids)) = some r := by
  have hne : later G ts ids ≠ [] := by
    rw [← List.length_pos_iff, hG.length_later]
    exact List.length_pos_iff.mpr hids
  have hlen : ts.length + (later G ts ids).length ≤ room := by
    rwa [hG.length_later, ← List.length_append]
  have hrows := Causal.forall_mem_later hwidth ts ids
  cases keep with
  | none =>
      obtain rfl : us = [] := hkeep
      rw [List.append_nil] at hpos hcached
      obtain ⟨y, kv, hrun⟩ := ht.forwardRange _ _ _ _ h.kv hne hlen hle hblocks hrows
        fun i hi hi' => by rw [hcached i hi hi', RowModel.length_cached, hG.length_eq]
      simp only [Hop.feed, hpos, hrun]
      exact ⟨_, rfl⟩
  | some n =>
      have hn : n.toNat = ts.length := hkeep
      have hkept : ts.length ≤ room := by
        rw [List.length_append] at hroom
        omega
      obtain ⟨kv, htrunc⟩ := ht.truncateKvTo ts.length h.kv hkept
      have htake := hm.truncateKvTo ts.length h.kv kv hkept htrunc
      obtain ⟨y, kv', hrun⟩ := ht.forwardRange _ _ _ _ kv hne hlen hle hblocks hrows
        fun i hi hi' => by
          rw [htake i, hcached i hi hi', List.length_take, RowModel.length_cached, hG.length_eq,
            List.length_append]
          omega
      simp only [Hop.feed, hn, htrunc, hrun]
      exact ⟨_, rfl⟩

theorem allSent_total (hm : Computes m layer g room) (ht : Unfailing m layer g room)
    {hs : List (Hop Addr K)} {G : List UInt32 → List (List F)} (hG : Causal G)
    (hwidth : ∀ ts, ∀ r ∈ G ts, r.length = g.width) {s e n seqs : Nat} {keep : Option UInt32}
    {ts us ids : List UInt32}
    (hspans : Spans s (hs.map fun h => h.link.layers) e) (he : e ≤ g.blocks)
    (hkeep : Keeps keep ts us) (hroom : (ts ++ us).length ≤ room) (hids : ids ≠ [])
    (hnext : (ts ++ ids).length ≤ room) (hseqs : n + 1 ≤ seqs)
    (hcaught : Caught dtype g layer n (G (ts ++ us)) hs)
    (hdelivers : ∀ h ∈ hs, Delivers cd dtype F g.width room seqs h.link.session) (phase : Phase) :
    AllSent cd dtype m phase keep (overWire dtype) hs (ofRows g.width (later G ts ids)) ∧
      ∃ r, feedAll m keep (overWire dtype) hs (ofRows g.width (later G ts ids)) = some r := by
  induction hs generalizing G s with
  | nil => exact ⟨trivial, _, rfl⟩
  | cons h hs ih =>
      obtain ⟨hstart, hlt, hrest⟩ := hspans
      obtain ⟨⟨hseq, hpos, hcached⟩, hcaught⟩ := hcaught
      have hrows := Causal.forall_mem_later hwidth ts ids
      have hlen : ∀ {H : List UInt32 → List (List F)}, Causal H →
          later H ts ids ≠ [] ∧ (later H ts ids).length ≤ room := by
        intro H hH
        rw [List.length_append] at hnext
        rw [← List.length_pos_iff, hH.length_later]
        exact ⟨List.length_pos_iff.mpr hids, by omega⟩
      have hkept : ∀ k, keep = some k → k.toNat ≤ room := by
        rintro k rfl
        have hk : k.toNat = ts.length := hkeep
        rw [List.length_append] at hroom
        omega
      have hG' : Causal fun ts => g.through h.link.layers.start.toNat h.link.layers.stop.toNat
          (wireRows dtype (G ts)) := (causal_wired hG).comp (RowModel.causal_through _ _)
      have hwidth' : ∀ ts, ∀ r ∈ g.through h.link.layers.start.toNat h.link.layers.stop.toNat
          (wireRows dtype (G ts)), r.length = g.width := fun ts =>
        RowModel.width_through (width_wireRows (hwidth ts))
      have hrows' := Causal.forall_mem_later hwidth' ts ids
      have hwired : overWire dtype (ofRows g.width (later G ts ids)) =
          ofRows g.width (later (fun ts => wireRows dtype (G ts)) ts ids) := by
        rw [overWire_ofRows hrows, later_wireRows hG]
      have hdeliver := hdelivers h List.mem_cons_self
      have hpos' : h.pos = (ts ++ us).length := by rw [hpos, hG.length_eq]
      have hwidths : ∀ ts, ∀ r ∈ wireRows dtype (G ts), r.length = g.width := fun ts =>
        width_wireRows (hwidth ts)
      obtain ⟨⟨y, h'⟩, hfeed⟩ := feed_total hm ht (causal_wired hG) hwidths
        (hstart.le.trans hlt.le) (hrest.le.trans he) hkeep hroom hids hnext hpos' hcached
      obtain ⟨hy, -, -⟩ := feed_caught hm (causal_wired hG) hwidths (hstart.le.trans hlt.le)
        (hrest.le.trans he) hkeep hroom hpos' hcached hfeed
      have hy' : overWire dtype y = ofRows g.width (later (fun ts => wireRows dtype
          (g.through h.link.layers.start.toNat h.link.layers.stop.toNat
            (wireRows dtype (G ts)))) ts ids) := by
        rw [hy, overWire_ofRows hrows', later_wireRows hG']
      obtain ⟨hall, r, hr⟩ := ih (causal_wired hG') (fun ts => width_wireRows (hwidth' ts)) hrest
        hcaught fun a ha => hdelivers a (List.mem_cons_of_mem h ha)
      obtain ⟨hne, hle⟩ := hlen hG
      obtain ⟨hne', hle'⟩ := hlen hG'
      refine ⟨⟨hdeliver _ phase keep _ (by omega) hkept hne hle hrows, fun y₁ h₁ hsome => ?_⟩, ?_⟩
      · rw [hwired, hfeed] at hsome
        obtain ⟨rfl, rfl⟩ := Prod.mk.inj (Option.some.inj hsome)
        refine ⟨?_, ?_, by rw [hy']; exact hall⟩
        · rw [hy]
          exact hdeliver _ .decode none _ (by omega) (by simp) hne' hle' hrows'
        · simp only [hy, ofRows, hG'.length_later, hG.length_later, List.take_succ_cons]
      · rw [← hy'] at hr
        exact ⟨_, by simp only [feedAll, hwired, hfeed, hr, Option.map_some]; rfl⟩

end Total

end IntelNav.System
