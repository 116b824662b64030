import IntelNav.Decoding.Greedy
import IntelNav.Runtime.Rows
import IntelNav.Runtime.Spec

/-! The parts of a speculative round, for models that are functions of rows: what is committed is
the target's greedy continuation, and the draft proposes its own. -/

set_option autoImplicit false
set_option relaxedAutoImplicit false

namespace IntelNav.Runtime

open IntelNav.Core IntelNav.Decoding IntelNav.Ggml

variable {D F E J A : Type} [F32 F] {g : RowModel F E}

section Settle

variable (g) {G : List UInt32 → List (List F)}

omit [F32 F] in
private theorem predAt_later (hG : Causal G) (ts ds : List UInt32) {i : Nat} (hi : i ≤ ds.length) :
    predAt (g.logits (G ts)) (g.allLogits (later G ts ds)) i =
      .ok (g.logits (G (ts ++ ds.take i))) := by
  cases i with
  | zero => rw [predAt, if_pos rfl, List.take_zero, List.append_nil]
  | succ i =>
      rw [predAt, if_neg (Nat.succ_ne_zero i), Nat.add_sub_cancel]
      exact g.selectPosition_allLogits hG ts hi

/-- The drafts counted from draft `i` on are those that agree with the predictions. -/
private theorem matchFrom_later (hG : Causal G) (ts ds es : List UInt32) :
    matchFrom (g.logits (G ts)) (g.allLogits (later G ts (ds ++ es))) ds.length es =
      .ok (agreed (fun ts => g.best (G ts)) (ts ++ ds) es) := by
  induction es generalizing ds with
  | nil => rfl
  | cons e es ih =>
      have hle : ds.length ≤ (ds ++ e :: es).length := by
        rw [List.length_append]
        omega
      have hpred := predAt_later g hG ts (ds ++ e :: es) hle
      rw [List.take_left' rfl] at hpred
      have hrest := ih (ds ++ [e])
      rw [List.length_append, List.length_singleton, List.append_assoc, List.singleton_append,
        ← List.append_assoc] at hrest
      simp only [matchFrom, hpred, bind, Except.bind, g.argmaxLast_logits, agreed]
      split
      · rw [hrest]
        rfl
      · rfl

theorem settle_later (hG : Causal G) (ts : List UInt32) {ds : List UInt32} (hds : ds ≠ []) :
    settle ds.length (g.logits (G ts)) (g.allLogits (later G ts ds)) ds =
      let next := fun ts => g.best (G ts)
      let j := agreed next ts ds
      .ok (j, greedy next (j + 1) ts, next (ts ++ ds.take j)) := by
  have hmatch := matchFrom_later g hG ts [] ds
  rw [List.nil_append, List.append_nil, List.length_nil] at hmatch
  simp only [settle, hmatch, bind, Except.bind, ← take_agreed_append_next]
  split
  · rename_i hall
    have hbonus := predAt_later g hG ts ds le_rfl
    rw [predAt, if_neg (List.length_pos_iff.mpr hds).ne', List.take_length] at hbonus
    simp only [hall, List.take_length, hbonus, g.argmaxLast_logits]
    rfl
  · have hpred := predAt_later g hG ts ds (agreed_le (fun ts => g.best (G ts)) ts ds)
    simp only [hpred, g.argmaxLast_logits]
    rfl

end Settle

def RowModel.rowsOf (g : RowModel F E) (ts : List UInt32) : List (List F) :=
  g.through 0 g.blocks (g.embedAll ts)

def RowModel.next (g : RowModel F E) (ts : List UInt32) : UInt32 := g.best (g.rowsOf ts)

/-- All caches of a model hold exactly the tokens, for which there is room. -/
structure HoldsTokens (layer : J → Nat → List E) (g : RowModel F E) (room : Nat) (kv : J)
    (ts : List UInt32) : Prop where
  cached : ∀ i < g.blocks, layer kv i = g.cached 0 (g.embedAll ts) i
  room_le : ts.length ≤ room

section Draft

variable {md : Pipelined F J} {layer : J → Nat → List E} {room : Nat} {kv kv' : J}
  {ts us ids : List UInt32}

omit [F32 F] in
theorem embedAll_append (ts us : List UInt32) :
    g.embedAll (ts ++ us) = g.embedAll ts ++ g.embedAll us := List.map_append ..

omit [F32 F] in
theorem Computes.forward_holds (hm : Computes md layer g room)
    (hkv : HoldsTokens layer g room kv ts) {y : Hidden F}
    (h : md.forward ids ts.length kv = (.ok y, kv')) :
    y = g.logits (g.rowsOf (ts ++ ids)) ∧ HoldsTokens layer g room kv' (ts ++ ids) := by
  have hlen : ∀ i < g.blocks, (layer kv i).length = ts.length := fun i hi => by
    rw [hkv.cached i hi, RowModel.length_cached, RowModel.embedAll, List.length_map]
  have hcached : ∀ i, 0 ≤ i → i < g.blocks → layer kv i = g.cached 0 (g.embedAll ts) i :=
    fun i _ hi => hkv.cached i hi
  obtain ⟨⟨r, hr, rfl⟩, hkept, hroom⟩ := hm.forward _ _ _ _ _ hlen h
  refine ⟨?_, fun i hi => ?_, by rwa [List.length_append]⟩
  · rw [RowModel.run_of_cached hcached] at hr
    rw [RowModel.logits, RowModel.rowsOf, embedAll_append,
      (RowModel.causal_through 0 g.blocks).append_later, List.getLastD_eq_getLast?,
      List.getLast?_append, hr]
    rfl
  · rw [hkept i hi, RowModel.kept_of_cached hcached (Nat.zero_le i) hi, embedAll_append]

omit [F32 F] in
private theorem Computes.truncate_holds (hm : Computes md layer g room)
    (hkv : HoldsTokens layer g room kv (ts ++ us))
    (h : md.truncateKvTo ts.length kv = (.ok (), kv')) : HoldsTokens layer g room kv' ts := by
  have hle : ts.length ≤ room := by
    have hroom := hkv.room_le
    rw [List.length_append] at hroom
    omega
  have hlen : ts.length = (g.embedAll ts).length := (List.length_map _).symm
  refine ⟨fun i hi => ?_, hle⟩
  rw [hm.truncateKvTo _ _ _ hle h, hkv.cached i hi, embedAll_append, hlen, RowModel.take_cached]

private theorem append_take_split {j n : Nat} (h : j ≤ n) (ts ds : List UInt32) :
    ts ++ ds.take n = ts ++ ds.take j ++ (ds.take n).drop j := by
  have htake : (ds.take n).take j = ds.take j := by rw [List.take_take, Nat.min_eq_left h]
  rw [List.append_assoc, ← htake, List.take_append_drop]

theorem proposeFrom_holds (hm : Computes md layer g room) {targetPos n i : Nat} {ds : List UInt32}
    (hpos : targetPos + i = ts.length) (hkv : HoldsTokens layer g room kv ts)
    (h : proposeFrom (A := A) (D := D) md targetPos i n (g.logits (g.rowsOf ts)) kv =
      (.ok ds, kv')) :
    ds = greedy g.next n ts ∧ HoldsTokens layer g room kv' (ts ++ ds.take (n - 1)) := by
  induction n generalizing i ts kv ds with
  | zero =>
      obtain ⟨hds, rfl⟩ := Prod.mk.inj h
      obtain rfl := Except.ok.inj hds
      exact ⟨rfl, by simpa using hkv⟩
  | succ n ih =>
      simp only [proposeFrom, g.argmaxLast_logits] at h
      split at h
      · rename_i hn
        obtain ⟨hds, rfl⟩ := Prod.mk.inj h
        obtain rfl := Except.ok.inj hds
        subst hn
        exact ⟨rfl, by simpa using hkv⟩
      · rename_i hn
        split at h
        · cases (Prod.mk.inj h).1
        rename_i cur kv₁ hforward
        rw [hpos] at hforward
        obtain ⟨rfl, hkv₁⟩ := hm.forward_holds hkv hforward
        split at h
        · cases (Prod.mk.inj h).1
        rename_i ds' kv₂ hrest
        obtain ⟨hds, rfl⟩ := Prod.mk.inj h
        obtain rfl := Except.ok.inj hds
        obtain ⟨hds', hkv₂⟩ := ih (by rw [List.length_append, List.length_singleton]; omega)
          hkv₁ hrest
        refine ⟨by rw [greedy, hds']; rfl, ?_⟩
        obtain ⟨n', rfl⟩ := Nat.exists_eq_succ_of_ne_zero hn
        rw [Nat.add_sub_cancel, List.take_succ_cons, ← List.singleton_append, ← List.append_assoc]
        exact hkv₂

theorem advanceAndPropose_holds (hm : Computes md layer g room) {k j : Nat} {last : UInt32}
    {ds es : List UInt32} (hk : 0 < k) (hds : ds.length = k) (hj : j ≤ k)
    (hkv : HoldsTokens layer g room kv (ts ++ ds.take (k - 1)))
    (h : advanceAndPropose (A := A) (D := D) md j k ds last ts.length kv = (.ok es, kv')) :
    es = greedy g.next k (ts ++ (ds.take j ++ [last])) ∧
      HoldsTokens layer g room kv' (ts ++ (ds.take j ++ [last]) ++ es.take (k - 1)) := by
  rw [advanceAndPropose] at h
  split at h
  · rename_i hall
    have hlt : k - 1 < ds.length := by omega
    rw [List.getElem?_eq_getElem hlt] at h
    dsimp only at h
    split at h
    · cases (Prod.mk.inj h).1
    rename_i cur kv₁ hforward
    have hpos : ts.length + k - 1 = (ts ++ ds.take (k - 1)).length := by
      rw [List.length_append, List.length_take]
      omega
    have htokens : ts ++ ds.take (k - 1) ++ [ds[k - 1], last] = ts ++ (ds.take j ++ [last]) := by
      have htake : ds.take (k - 1) ++ [ds[k - 1]] = ds.take k := by
        rw [List.take_append_getElem, Nat.sub_add_cancel hk]
      rw [hall, ← htake]
      simp only [List.append_assoc, List.singleton_append]
    rw [hpos] at hforward
    obtain ⟨rfl, hkv₁⟩ := hm.forward_holds hkv hforward
    rw [htokens] at hkv₁ h
    refine proposeFrom_holds hm ?_ hkv₁ h
    rw [List.length_append, List.length_append, List.length_take, List.length_singleton]
    omega
  · rename_i hne
    split at h
    · cases (Prod.mk.inj h).1
    rename_i kv₁ htrunc
    split at h
    · cases (Prod.mk.inj h).1
    rename_i cur kv₂ hforward
    have hpos : ts.length + j = (ts ++ ds.take j).length := by
      rw [List.length_append, List.length_take]
      omega
    rw [append_take_split (show j ≤ k - 1 by omega)] at hkv
    rw [hpos] at htrunc hforward
    have hkv₁ := hm.truncate_holds hkv htrunc
    obtain ⟨rfl, hkv₂⟩ := hm.forward_holds hkv₁ hforward
    rw [List.append_assoc] at hkv₂ h
    refine proposeFrom_holds hm ?_ hkv₂ h
    rw [List.length_append, List.length_append, List.length_take, List.length_singleton]
    omega

omit [F32 F] in
theorem Unfailing.forward_ok (ht : Unfailing md layer g room)
    (hkv : HoldsTokens layer g room kv ts) (hids : ids ≠ [])
    (hroom : (ts ++ ids).length ≤ room) : ∃ y kv', md.forward ids ts.length kv = (.ok y, kv') := by
  refine ht.forward _ _ _ hids (by rwa [← List.length_append]) fun i hi => ?_
  rw [hkv.cached i hi, RowModel.length_cached, RowModel.embedAll, List.length_map]

theorem proposeFrom_ok (hm : Computes md layer g room) (ht : Unfailing md layer g room)
    {targetPos n i : Nat} (hpos : targetPos + i = ts.length) (hkv : HoldsTokens layer g room kv ts)
    (hroom : ts.length + (n - 1) ≤ room) :
    ∃ ds kv', proposeFrom (A := A) (D := D) md targetPos i n (g.logits (g.rowsOf ts)) kv =
      (.ok ds, kv') := by
  induction n generalizing i ts kv with
  | zero => exact ⟨[], kv, rfl⟩
  | succ n ih =>
      simp only [proposeFrom, g.argmaxLast_logits]
      split
      · exact ⟨_, _, rfl⟩
      · rename_i hn
        have hnext : (ts ++ [g.best (g.rowsOf ts)]).length = ts.length + 1 := List.length_append ..
        obtain ⟨y, kv₁, hforward⟩ := ht.forward_ok hkv
          (List.cons_ne_nil (g.best (g.rowsOf ts)) []) (by omega)
        obtain ⟨rfl, hkv₁⟩ := hm.forward_holds hkv hforward
        obtain ⟨ds, kv₂, hrest⟩ := ih (by omega) hkv₁ (i := i + 1) (by omega)
        rw [hpos]
        simp only [hforward, hrest]
        exact ⟨_, _, rfl⟩

theorem advanceAndPropose_ok (hm : Computes md layer g room) (ht : Unfailing md layer g room)
    {k j : Nat} {last : UInt32} {ds : List UInt32} (hk : 0 < k) (hds : ds.length = k) (hj : j ≤ k)
    (hkv : HoldsTokens layer g room kv (ts ++ ds.take (k - 1)))
    (hroom : ts.length + j + k ≤ room) :
    ∃ es kv', advanceAndPropose (A := A) (D := D) md j k ds last ts.length kv = (.ok es, kv') := by
  rw [advanceAndPropose]
  split
  · rename_i hall
    have hlt : k - 1 < ds.length := by omega
    have hpos : (ts ++ ds.take (k - 1)).length = ts.length + k - 1 := by
      rw [List.length_append, List.length_take]
      omega
    have hnext : (ts ++ ds.take (k - 1) ++ [ds[k - 1], last]).length = ts.length + k + 1 := by
      rw [List.length_append, hpos]
      simp only [List.length_cons, List.length_nil]
      omega
    obtain ⟨y, kv₁, hforward⟩ := ht.forward_ok hkv (List.cons_ne_nil ds[k - 1] [last]) (by omega)
    obtain ⟨rfl, hkv₁⟩ := hm.forward_holds hkv hforward
    rw [List.getElem?_eq_getElem hlt]
    rw [hpos] at hforward
    simp only [hforward, proposeKDrafts]
    exact proposeFrom_ok hm ht (by omega) hkv₁ (by omega)
  · have hpos : (ts ++ ds.take j).length = ts.length + j := by
      rw [List.length_append, List.length_take]
      omega
    have hnext : (ts ++ ds.take j ++ [last]).length = ts.length + j + 1 := by
      rw [List.length_append, hpos, List.length_singleton]
    rw [append_take_split (show j ≤ k - 1 by omega)] at hkv
    obtain ⟨kv₁, htrunc⟩ := ht.truncateKvTo (ts ++ ds.take j).length kv (by omega)
    have hkv₁ := hm.truncate_holds hkv htrunc
    obtain ⟨y, kv₂, hforward⟩ := ht.forward_ok hkv₁ (List.cons_ne_nil last []) (by omega)
    obtain ⟨rfl, hkv₂⟩ := hm.forward_holds hkv₁ hforward
    rw [hpos] at htrunc hforward
    simp only [htrunc, hforward, proposeKDrafts]
    exact proposeFrom_ok hm ht (by omega) hkv₂ (by omega)

end Draft

end IntelNav.Runtime
