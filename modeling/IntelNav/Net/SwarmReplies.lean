import Mathlib.Algebra.Order.Group.Multiset
import Mathlib.Data.Multiset.Range
import Mathlib.Tactic.Abel
import IntelNav.Net.Swarm
import IntelNav.Transition.Meeting
import IntelNav.Transition.Run

/-! What the callers of the swarm task are told, over whole runs.

Calls for identified peers meet the peers in order, and a peer is lost just when the call it met had
been given up. Every other call waits exactly as long as its query runs, and a lookup is told what
was found for its own query, or that it failed. -/

set_option autoImplicit false
set_option relaxedAutoImplicit false

namespace IntelNav.Net

open IntelNav.Transition

variable {Peer Addr Key Query : Type}

section Values

def values (m : AList fun _ : Query => Nat) : Multiset Nat := (m.entries.map Sigma.snd : List Nat)

variable [DecidableEq Query]

private theorem values_insert {m : AList fun _ : Query => Nat} {id : Query} (h : m.lookup id = none)
    (n : Nat) : values (m.insert id n) = n ::ₘ values m := by
  rw [values, AList.entries_insert_of_notMem (AList.lookup_eq_none.mp h)]
  rfl

private theorem values_erase {m : AList fun _ : Query => Nat} {id : Query} {n : Nat}
    (h : m.lookup id = some n) : values m = n ::ₘ values (m.erase id) := by
  have hmem : id ∈ m.entries.keys := AList.lookup_isSome.mp (by rw [h]; rfl)
  obtain ⟨b, l, r, hl, hm, herase⟩ := List.exists_of_kerase hmem
  have hb : b = n := by
    have hin : (⟨id, b⟩ : Sigma fun _ : Query => Nat) ∈ m.entries := by
      rw [hm]
      exact List.mem_append_right _ List.mem_cons_self
    exact Option.some.inj ((AList.mem_lookup_iff.mpr hin).symm.trans h)
  have herased : (m.erase id).entries = l ++ r := herase
  rw [values, values, hm, herased, hb, List.map_append, List.map_cons, List.map_append,
    ← Multiset.coe_add, ← Multiset.cons_coe, Multiset.add_cons, Multiset.coe_add]

end Values

namespace Driver

variable {d d' : Driver Peer Addr Key Query}

/-! What was observed. -/

def asked? : Observation Peer Addr Key Query → Option Nat
  | .asked channel => some channel
  | _ => none

def identified? : Observation Peer Addr Key Query → Option (IdentifiedPeer Peer Addr)
  | .identified peer => some peer
  | _ => none

def handed? : Observation Peer Addr Key Query → Option (Nat × IdentifiedPeer Peer Addr)
  | .replied channel (.identified peer) => some (channel, peer)
  | _ => none

def replied? : Observation Peer Addr Key Query → Option Nat
  | .replied channel _ => some channel
  | _ => none

def lost? : Observation Peer Addr Key Query → Option (Nat × IdentifiedPeer Peer Addr)
  | .lost channel peer => some (channel, peer)
  | _ => none

def asked (d : Driver Peer Addr Key Query) : List Nat := (d.history.filterMap asked?).reverse

def identified (d : Driver Peer Addr Key Query) : List (IdentifiedPeer Peer Addr) :=
  (d.history.filterMap identified?).reverse

def handedOut (d : Driver Peer Addr Key Query) : List (Nat × IdentifiedPeer Peer Addr) :=
  (d.history.filterMap handed?).reverse

def lost (d : Driver Peer Addr Key Query) : List (Nat × IdentifiedPeer Peer Addr) :=
  (d.history.filterMap lost?).reverse

def answered (d : Driver Peer Addr Key Query) :
    Multiset Nat := (d.history.filterMap replied? : List Nat)

def waiting (d : Driver Peer Addr Key Query) : Multiset Nat :=
  (d.idWaiters : Multiset Nat) + values d.putWaiters + values d.getWaiters +
    values d.bootstrapWaiters

def meeting (d : Driver Peer Addr Key Query) : Meeting (IdentifiedPeer Peer Addr) Nat :=
  ⟨d.pendingId, d.idWaiters, d.handedOut⟩

@[simp] theorem asked_observe (o : Observation Peer Addr Key Query) :
    (d.observe o).asked = d.asked ++ (asked? o).toList := by
  cases h : asked? o <;> simp [asked, observe, h]

@[simp] theorem identified_observe (o : Observation Peer Addr Key Query) :
    (d.observe o).identified = d.identified ++ (identified? o).toList := by
  cases h : identified? o <;> simp [identified, observe, h]

@[simp] theorem handedOut_observe (o : Observation Peer Addr Key Query) :
    (d.observe o).handedOut = d.handedOut ++ (handed? o).toList := by
  cases h : handed? o <;> simp [handedOut, observe, h]

/-- What was observed later includes what was observed before, and what came is one of `P`. -/
def Extends (P : Observation Peer Addr Key Query → Prop)
    (old new : List (Observation Peer Addr Key Query)) : Prop :=
  ∃ added, new = added ++ old ∧ ∀ o ∈ added, P o

section Extends

variable {P : Observation Peer Addr Key Query → Prop}
  {old new : List (Observation Peer Addr Key Query)}

theorem Extends.refl : Extends P old old := ⟨[], rfl, by simp⟩

theorem Extends.trans {newer : List (Observation Peer Addr Key Query)} (h : Extends P old new)
    (h' : Extends P new newer) : Extends P old newer := by
  obtain ⟨added, rfl, hall⟩ := h
  obtain ⟨added', rfl, hall'⟩ := h'
  refine ⟨added' ++ added, (List.append_assoc _ _ _).symm, fun o ho => ?_⟩
  exact (List.mem_append.mp ho).elim (hall' o) (hall o)

theorem Extends.observe (h : Extends P old d.history) {o : Observation Peer Addr Key Query}
    (ho : P o) : Extends P old (d.observe o).history := by
  obtain ⟨added, heq, hall⟩ := h
  refine ⟨o :: added, congrArg (o :: ·) heq, fun o' ho' => ?_⟩
  rcases List.mem_cons.mp ho' with rfl | ho'
  · exact ho
  · exact hall o' ho'

theorem Extends.sendPeer (h : Extends P old d.history) {channel : Nat}
    {peer : IdentifiedPeer Peer Addr} (hsent : P (.replied channel (.identified peer)))
    (hlost : P (.lost channel peer)) : Extends P old (d.sendPeer channel peer).history := by
  unfold Driver.sendPeer
  dsimp only
  split
  · exact (h.observe hsent).observe hlost
  · exact h.observe hsent

theorem Extends.mem (h : Extends P old new) {o : Observation Peer Addr Key Query} :
    o ∈ new → o ∈ old ∨ P o := by
  obtain ⟨added, rfl, hall⟩ := h
  intro ho
  exact (List.mem_append.mp ho).symm.imp_right (hall o)

theorem Extends.subset (h : Extends P old new) : old ⊆ new := by
  obtain ⟨added, rfl, -⟩ := h
  exact List.subset_append_right _ _

end Extends

/-! Identified peers. -/

/-- An observation that has nothing to do with identified peers. -/
structure Beside (o : Observation Peer Addr Key Query) : Prop where
  asked : asked? o = none
  identified : identified? o = none
  handed : handed? o = none
  lost : lost? o = none
  gaveUp : ∀ channel, o ≠ .gaveUp channel

/-- Nothing happens to the queues of peers and of calls for them. -/
structure Apart (d d' : Driver Peer Addr Key Query) : Prop where
  pendingId : d'.pendingId = d.pendingId
  idWaiters : d'.idWaiters = d.idWaiters
  gone : d'.gone = d.gone
  history : Extends Beside d.history d'.history

theorem Apart.refl (d : Driver Peer Addr Key Query) : Apart d d := ⟨rfl, rfl, rfl, .refl⟩

theorem Apart.trans {d'' : Driver Peer Addr Key Query} (h : Apart d d') (h' : Apart d' d'') :
    Apart d d'' :=
  ⟨h'.pendingId.trans h.pendingId, h'.idWaiters.trans h.idWaiters, h'.gone.trans h.gone,
    h.history.trans h'.history⟩

private theorem filterMap_beside {α : Type} {f : Observation Peer Addr Key Query → Option α}
    (hf : ∀ o, Beside o → f o = none) {old new : List (Observation Peer Addr Key Query)}
    (h : Extends Beside old new) : new.filterMap f = old.filterMap f := by
  obtain ⟨added, rfl, hall⟩ := h
  rw [List.filterMap_append, List.filterMap_eq_nil_iff.mpr fun o ho => hf o (hall o ho),
    List.nil_append]

theorem Apart.asked (h : Apart d d') : d'.asked = d.asked := by
  rw [Driver.asked, filterMap_beside (fun _ ho => ho.asked) h.history, Driver.asked]

theorem Apart.identified (h : Apart d d') : d'.identified = d.identified := by
  rw [Driver.identified, filterMap_beside (fun _ ho => ho.identified) h.history, Driver.identified]

private theorem Apart.meeting (h : Apart d d') : d'.meeting = d.meeting := by
  rw [Driver.meeting, handedOut, filterMap_beside (fun _ ho => ho.handed) h.history, h.pendingId,
    h.idWaiters, Driver.meeting, handedOut]

private theorem apart_setWaiters (kind : QueryKind) (m : AList fun _ : Query => Nat) :
    Apart d (d.setWaiters kind m) := by
  cases kind <;> exact ⟨rfl, rfl, rfl, .refl⟩

private theorem apart_setBuffers (m : AList fun _ : Query => List Value) :
    Apart d (d.setBuffers m) :=
  ⟨rfl, rfl, rfl, .refl⟩

private theorem apart_newChannel (d : Driver Peer Addr Key Query) : Apart d d.newChannel :=
  ⟨rfl, rfl, rfl, .refl⟩

theorem Apart.observe {o : Observation Peer Addr Key Query} (h : Apart d d') (ho : Beside o) :
    Apart d (d'.observe o) :=
  ⟨h.pendingId, h.idWaiters, h.gone, h.history.observe ho⟩

private theorem beside_started (id : Query) (channel : Nat) (request : Request Key) :
    Beside (.started id channel request : Observation Peer Addr Key Query) :=
  ⟨rfl, rfl, rfl, rfl, nofun⟩

private theorem beside_found (id : Query) (value : Value) :
    Beside (.found id value : Observation Peer Addr Key Query) :=
  ⟨rfl, rfl, rfl, rfl, nofun⟩

private theorem beside_failed (id : Query) (error : String) :
    Beside (.failed id error : Observation Peer Addr Key Query) :=
  ⟨rfl, rfl, rfl, rfl, nofun⟩

private theorem beside_ended (id : Query) (kind : QueryKind) :
    Beside (.ended id kind : Observation Peer Addr Key Query) :=
  ⟨rfl, rfl, rfl, rfl, nofun⟩

private theorem beside_replied (channel : Nat) {reply : Reply Peer Addr}
    (h : ∀ peer, reply ≠ .identified peer) :
    Beside (.replied channel reply : Observation Peer Addr Key Query) := by
  refine ⟨rfl, rfl, ?_, rfl, nofun⟩
  cases reply with
  | identified peer => exact absurd rfl (h peer)
  | dialed | bootstrapped | announced | records => rfl

/-- The peer of a call is lost if the call had been given up when it was sent, and only then. -/
def LostWhenGone (history : List (Observation Peer Addr Key Query)) : Prop :=
  ∀ channel peer, .lost channel peer ∈ history ↔ ∃ later earlier,
    history = later ++ .replied channel (.identified peer) :: earlier ∧ .gaveUp channel ∈ earlier

theorem LostWhenGone.cons {o : Observation Peer Addr Key Query}
    {history : List (Observation Peer Addr Key Query)} (h : LostWhenGone history)
    (hhanded : handed? o = none) (hlost : lost? o = none) : LostWhenGone (o :: history) := by
  intro channel peer
  have hne : Observation.lost channel peer ≠ o := by
    rintro rfl
    cases hlost
  rw [List.mem_cons, or_iff_right hne, h channel peer]
  constructor
  · rintro ⟨later, earlier, rfl, hgave⟩
    exact ⟨o :: later, earlier, rfl, hgave⟩
  · rintro ⟨later, earlier, heq, hgave⟩
    cases later with
    | nil =>
        obtain rfl := (List.cons.inj heq).1
        cases hhanded
    | cons o' later => exact ⟨later, earlier, (List.cons.inj heq).2, hgave⟩

theorem LostWhenGone.extends {old new : List (Observation Peer Addr Key Query)}
    (h : LostWhenGone old) (hnew : Extends Beside old new) : LostWhenGone new := by
  obtain ⟨added, rfl, hall⟩ := hnew
  induction added with
  | nil => exact h
  | cons o added ih =>
      have ho := hall o List.mem_cons_self
      exact (ih fun o' ho' => hall o' (List.mem_cons_of_mem _ ho')).cons ho.handed ho.lost

theorem LostWhenGone.sendPeer (h : LostWhenGone d.history) {channel : Nat}
    (hgone : channel ∈ d.gone ↔ .gaveUp channel ∈ d.history) (peer : IdentifiedPeer Peer Addr) :
    LostWhenGone (d.sendPeer channel peer).history := by
  have hsent : ∀ channel' peer',
    (∃ later earlier, .replied channel (.identified peer) :: d.history =
      later ++ .replied channel' (.identified peer') :: earlier ∧ .gaveUp channel' ∈ earlier) ↔
      .lost channel' peer' ∈ d.history ∨
        (channel' = channel ∧ peer' = peer) ∧ .gaveUp channel ∈ d.history := by
    intro channel' peer'
    rw [h channel' peer']
    constructor
    · rintro ⟨later, earlier, heq, hgave⟩
      cases later with
      | nil =>
          obtain ⟨hhead, rfl⟩ := List.cons.inj heq
          obtain ⟨rfl, hpeer⟩ := Observation.replied.inj hhead
          exact .inr ⟨⟨rfl, (Reply.identified.inj hpeer).symm⟩, hgave⟩
      | cons o later => exact .inl ⟨later, earlier, (List.cons.inj heq).2, hgave⟩
    · rintro (⟨later, earlier, heq, hgave⟩ | ⟨⟨rfl, rfl⟩, hgave⟩)
      · exact ⟨_ :: later, earlier, congrArg _ heq, hgave⟩
      · exact ⟨[], d.history, rfl, hgave⟩
  unfold Driver.sendPeer
  dsimp only
  split
  · rename_i hmem
    intro channel' peer'
    have hshift : (∃ later earlier, .lost channel peer :: .replied channel (.identified peer) ::
        d.history = later ++ .replied channel' (.identified peer') :: earlier ∧
          .gaveUp channel' ∈ earlier) ↔
        ∃ later earlier, .replied channel (.identified peer) :: d.history =
          later ++ .replied channel' (.identified peer') ::
            earlier ∧ .gaveUp channel' ∈ earlier := by
      constructor
      · rintro ⟨later, earlier, heq, hgave⟩
        cases later with
        | nil => cases (List.cons.inj heq).1
        | cons o later => exact ⟨later, earlier, (List.cons.inj heq).2, hgave⟩
      · rintro ⟨later, earlier, heq, hgave⟩
        exact ⟨_ :: later, earlier, congrArg _ heq, hgave⟩
    refine Iff.trans ?_ (hshift.trans (hsent channel' peer')).symm
    simp only [observe, List.mem_cons, Observation.lost.injEq, reduceCtorEq, false_or,
      hgone.mp hmem, and_true]
    exact or_comm
  · rename_i hmem
    intro channel' peer'
    refine Iff.trans ?_ (hsent channel' peer').symm
    simp only [observe, List.mem_cons, reduceCtorEq, false_or, mt hgone.mpr hmem, and_false,
      or_false]

/-- The queues serve each other in order, and what was sent to calls that had been given up is
lost. -/
structure Handed (d : Driver Peer Addr Key Query) : Prop where
  fair : Meeting.Fair d.asked d.identified d.meeting
  gone : ∀ channel, channel ∈ d.gone ↔ .gaveUp channel ∈ d.history
  lost : LostWhenGone d.history

theorem Handed.start : Handed ({} : Driver Peer Addr Key Query) where
  fair := .empty
  gone _ := by simp
  lost := by
    intro channel peer
    simp

theorem Handed.apart (h : d.Handed) (hapart : Apart d d') : d'.Handed where
  fair := by
    rw [hapart.asked, hapart.identified, hapart.meeting]
    exact h.fair
  gone channel := by
    rw [hapart.gone, h.gone]
    refine ⟨fun hmem => hapart.history.subset hmem, fun hmem => ?_⟩
    exact (hapart.history.mem hmem).resolve_right fun ho => ho.gaveUp channel rfl
  lost := h.lost.extends hapart.history

theorem Handed.onGiveUp (h : d.Handed) (channel : Nat) : (d.onGiveUp channel).Handed where
  fair := h.fair
  gone channel' := by
    simp only [Driver.onGiveUp, observe, List.mem_cons, Observation.gaveUp.injEq, h.gone]
  lost := h.lost.cons rfl rfl

@[simp] theorem asked_sendPeer (channel : Nat) (peer : IdentifiedPeer Peer Addr) :
    (d.sendPeer channel peer).asked = d.asked := by
  unfold sendPeer
  dsimp only
  split <;> simp [asked?]

@[simp] theorem identified_sendPeer (channel : Nat) (peer : IdentifiedPeer Peer Addr) :
    (d.sendPeer channel peer).identified = d.identified := by
  unfold sendPeer
  dsimp only
  split <;> simp [identified?]

private theorem meeting_sendPeer (channel : Nat) (peer : IdentifiedPeer Peer Addr) :
    (d.sendPeer channel peer).meeting =
      ⟨d.pendingId, d.idWaiters, d.handedOut ++ [(channel, peer)]⟩ := by
  have hhanded : (d.sendPeer channel peer).handedOut = d.handedOut ++ [(channel, peer)] := by
    unfold sendPeer
    dsimp only
    split <;> simp [handed?]
  rw [meeting, hhanded]
  unfold sendPeer
  dsimp only
  split <;> rfl

private theorem gone_sendPeer (channel channel' : Nat) (peer : IdentifiedPeer Peer Addr)
    (h : channel' ∈ d.gone ↔ .gaveUp channel' ∈ d.history) :
    channel' ∈ (d.sendPeer channel peer).gone ↔
      .gaveUp channel' ∈ (d.sendPeer channel peer).history := by
  unfold sendPeer
  dsimp only
  split <;> simpa [observe] using h

theorem Handed.onNextIdentified (h : d.Handed) : d.onNextIdentified.Handed := by
  have hasked : (d.newChannel.observe (.asked d.channels)).asked = d.asked ++ [d.channels] :=
    asked_observe _
  have hidentified : (d.newChannel.observe (.asked d.channels)).identified = d.identified :=
    (identified_observe _).trans (List.append_nil _)
  have hhanded : (d.newChannel.observe (.asked d.channels)).handedOut = d.handedOut :=
    (handedOut_observe _).trans (List.append_nil _)
  have hgone : ∀ channel, channel ∈ d.gone ↔
      .gaveUp channel ∈ (d.newChannel.observe (.asked d.channels)).history := by
    intro channel
    rw [h.gone]
    exact ⟨List.mem_cons_of_mem _, fun hmem => (List.mem_cons.mp hmem).resolve_left nofun⟩
  have hlost : LostWhenGone (d.newChannel.observe (.asked d.channels)).history :=
    h.lost.cons rfl rfl
  have hfair := h.fair.take d.channels
  unfold Driver.onNextIdentified
  cases hpending : d.pendingId with
  | nil =>
      have hnext : d.meeting.take d.channels =
          ⟨d.pendingId, d.idWaiters ++ [d.channels], d.handedOut⟩ := by
        simp only [Meeting.take, meeting, hpending]
      rw [hnext, ← hasked, ← hidentified, ← hhanded] at hfair
      exact ⟨hfair, hgone, hlost⟩
  | cons peer pendingId =>
      have hnext : d.meeting.take d.channels =
          ⟨pendingId, d.idWaiters, d.handedOut ++ [(d.channels, peer)]⟩ := by
        simp only [Meeting.take, meeting, hpending]
      rw [hnext, ← hasked, ← hidentified, ← hhanded] at hfair
      refine ⟨?_, fun channel => gone_sendPeer _ _ _ (hgone channel), ?_⟩
      · rw [asked_sendPeer, identified_sendPeer, meeting_sendPeer]
        exact hfair
      · apply LostWhenGone.sendPeer
        · exact hlost
        · exact hgone d.channels

theorem Handed.onIdentified (h : d.Handed) (peer : IdentifiedPeer Peer Addr) :
    (d.onIdentified peer).Handed := by
  have hasked : (d.observe (.identified peer)).asked = d.asked :=
    (asked_observe _).trans (List.append_nil _)
  have hidentified : (d.observe (.identified peer)).identified = d.identified ++ [peer] :=
    identified_observe _
  have hhanded : (d.observe (.identified peer)).handedOut = d.handedOut :=
    (handedOut_observe _).trans (List.append_nil _)
  have hgone : ∀ channel, channel ∈ d.gone ↔
      .gaveUp channel ∈ (d.observe (.identified peer)).history := by
    intro channel
    rw [h.gone]
    exact ⟨List.mem_cons_of_mem _, fun hmem => (List.mem_cons.mp hmem).resolve_left nofun⟩
  have hlost : LostWhenGone (d.observe (.identified peer)).history := h.lost.cons rfl rfl
  have hfair := h.fair.give peer
  unfold Driver.onIdentified
  cases hwaiters : d.idWaiters with
  | nil =>
      have hnext : d.meeting.give peer = ⟨d.pendingId ++ [peer], [], d.handedOut⟩ := by
        simp only [Meeting.give, meeting, hwaiters]
      rw [hnext, ← hasked, ← hidentified, ← hhanded] at hfair
      exact ⟨hfair, hgone, hlost⟩
  | cons w idWaiters =>
      have hnext : d.meeting.give peer =
          ⟨d.pendingId, idWaiters, d.handedOut ++ [(w, peer)]⟩ := by
        simp only [Meeting.give, meeting, hwaiters]
      rw [hnext, ← hasked, ← hidentified, ← hhanded] at hfair
      refine ⟨?_, fun channel => gone_sendPeer _ _ _ (hgone channel), ?_⟩
      · rw [asked_sendPeer, identified_sendPeer, meeting_sendPeer]
        exact hfair
      · apply LostWhenGone.sendPeer
        · exact hlost
        · exact hgone w

section Queries

variable [DecidableEq Query]

private theorem apart_start (id : Query) (request : Request Key) : Apart d (d.start id request) :=
  ((apart_setWaiters request.kind _).trans (apart_newChannel _)).observe
    (beside_started id _ request)

private theorem apart_settle (kind : QueryKind) (id : Query) {reply : Reply Peer Addr}
    (h : ∀ peer, reply ≠ .identified peer) : Apart d (d.settle kind id reply) := by
  unfold settle
  split
  · exact (apart_setWaiters kind _).observe (beside_replied _ h)
  · exact .refl d

private theorem apart_endGet (id : Query) (reply : List Value → Except String (List Value)) :
    Apart d (d.endGet id reply) :=
  ((apart_setBuffers _).observe (beside_ended id .get)).trans (apart_settle .get id (by simp))

omit [DecidableEq Query] in
private theorem apart_answer {reply : Reply Peer Addr} (h : ∀ peer, reply ≠ .identified peer) :
    Apart d (d.newChannel.observe (.replied d.channels reply)) :=
  (apart_newChannel d).observe (beside_replied _ h)

theorem Handed.turn (h : d.Handed) (e : SwarmEvent Peer Addr Key Query) : (d.turn e).Handed := by
  cases e with
  | dial addr result => exact h.apart (apart_answer (by simp))
  | nextIdentified => exact h.onNextIdentified
  | addBootstrap peer addr => exact h.apart ⟨rfl, rfl, rfl, .refl⟩
  | bootstrap started =>
      cases started with
      | ok id => exact h.apart (apart_start id .bootstrap)
      | error e => exact h.apart (apart_answer (by simp))
  | announceShard key value started =>
      cases started with
      | ok id => exact h.apart (apart_start id _)
      | error e => exact h.apart (apart_answer (by simp))
  | getShardProviders key id => exact h.apart ((apart_setBuffers _).trans (apart_start id _))
  | shutdown => exact h.apart ⟨rfl, rfl, rfl, .refl⟩
  | identifyReceived peer => exact h.onIdentified peer
  | putRecord id result =>
      exact h.apart (((Apart.refl d).observe (beside_ended id .put)).trans
        (apart_settle .put id (by simp)))
  | foundRecord id value =>
      apply h.apart
      change Apart d (d.onFoundRecord id value)
      unfold onFoundRecord
      split
      · exact (apart_setBuffers _).observe (beside_found id value)
      · exact (Apart.refl d).observe (beside_found id value)
  | finishedWithNoAdditionalRecord id last =>
      cases last with
      | true => exact h.apart (apart_endGet id .ok)
      | false => exact h
  | getRecordFailed id error =>
      apply h.apart
      change Apart d (d.onGetRecordFailed id error)
      exact ((Apart.refl d).observe (beside_failed id error)).trans (apart_endGet id _)
  | bootstrapProgressed id last result =>
      cases last with
      | true =>
          exact h.apart (((Apart.refl d).observe (beside_ended id .bootstrap)).trans
            (apart_settle .bootstrap id (by simp)))
      | false => exact h
  | giveUp channel => exact h.onGiveUp channel
  | other => exact h

private theorem eq_turn {e : SwarmEvent Peer Addr Key Query} (hs : d.step e = some d') :
    d' = d.turn e := by
  obtain ⟨-, hs⟩ := Option.ite_none_left_eq_some.mp hs
  exact (Option.some.inj hs).symm

/-- The n-th call for an identified peer is sent the n-th peer identified, and whatever has no
counterpart yet waits in order; a peer is lost just when the call it was sent to had been given
up. -/
theorem identified_in_order {es : List (SwarmEvent Peer Addr Key Query)}
    (hrun : Run step (fun _ _ => True) {} es d) :
    d.handedOut = d.asked.zip d.identified ∧
      d.pendingId = d.identified.drop d.asked.length ∧
      d.idWaiters = d.asked.drop d.identified.length ∧
      ∀ channel peer, (channel, peer) ∈ d.lost ↔ ∃ later earlier,
        d.history = later ++ .replied channel (.identified peer) :: earlier ∧
          .gaveUp channel ∈ earlier := by
  have h : d.Handed := hrun.invariant .start fun x e y h _ hs => by
    rw [eq_turn hs]
    exact h.turn e
  refine ⟨h.fair.met, h.fair.givers, h.fair.takers, fun channel peer => ?_⟩
  rw [← h.lost channel peer, lost, List.mem_reverse, List.mem_filterMap]
  constructor
  · rintro ⟨o, ho, hlost⟩
    cases o with
    | lost channel' peer' =>
        obtain ⟨rfl, rfl⟩ := Prod.mk.inj (Option.some.inj hlost)
        exact ho
    | _ => cases hlost
  · intro ho
    exact ⟨_, ho, rfl⟩

/-! The accounts of the channels. -/

/-- Every channel was answered or is waited for, and no channel twice. -/
def Accounted (d : Driver Peer Addr Key Query) : Prop :=
  d.answered + d.waiting = Multiset.range d.channels

omit [DecidableEq Query] in
private theorem answered_observe (o : Observation Peer Addr Key Query) :
    (d.observe o).answered = ((replied? o).toList : Multiset Nat) + d.answered := by
  cases h : replied? o <;> simp [answered, observe, h]

omit [DecidableEq Query] in
private theorem waiting_setWaiters (kind : QueryKind) (m : AList fun _ : Query => Nat) :
    (d.setWaiters kind m).waiting + values (d.waiters kind) = d.waiting + values m := by
  cases kind <;> simp only [setWaiters, waiting, waiters] <;> abel

omit [DecidableEq Query] in
theorem Accounted.observe (h : d.Accounted) {o : Observation Peer Addr Key Query}
    (ho : replied? o = none) : (d.observe o).Accounted := by
  rw [Accounted, answered_observe, ho, Option.toList_none, Multiset.coe_nil, zero_add]
  exact h

omit [DecidableEq Query] in
theorem Accounted.answer (h : d.Accounted) (reply : Reply Peer Addr) :
    (d.newChannel.observe (.replied d.channels reply)).Accounted := by
  have hone : ([d.channels] : Multiset Nat) + d.newChannel.answered =
      d.channels ::ₘ d.answered := rfl
  have hrange : (d.newChannel.observe (.replied d.channels reply)).channels = d.channels + 1 := rfl
  have hwaiting : (d.newChannel.observe (.replied d.channels reply)).waiting = d.waiting := rfl
  rw [Accounted, answered_observe, hrange, hwaiting, Multiset.range_succ, ← h, ← Multiset.cons_add,
    ← hone]
  rfl

theorem Accounted.start (h : d.Accounted) {id : Query} {request : Request Key}
    (hfree : (d.waiters request.kind).lookup id = none) : (d.start id request).Accounted := by
  have hwaiting := waiting_setWaiters (d := d) request.kind
    ((d.waiters request.kind).insert id d.channels)
  rw [values_insert hfree, Multiset.add_cons, ← Multiset.cons_add] at hwaiting
  have hnew : (d.start id request).waiting = d.channels ::ₘ d.waiting := add_right_cancel hwaiting
  have hanswered : (d.start id request).answered = d.answered := by
    rw [Driver.start, answered_observe]
    cases request <;> exact zero_add _
  have hrange : (d.start id request).channels = d.channels + 1 := by
    cases request <;> rfl
  rw [Accounted, hnew, hanswered, hrange, Multiset.range_succ, Multiset.add_cons, h]

theorem Accounted.settle (h : d.Accounted) (kind : QueryKind) (id : Query)
    (reply : Reply Peer Addr) : (d.settle kind id reply).Accounted := by
  unfold Driver.settle
  split
  · rename_i w hw
    have hwaiting := waiting_setWaiters (d := d) kind ((d.waiters kind).erase id)
    rw [values_erase hw, Multiset.add_cons, ← Multiset.cons_add] at hwaiting
    have hrest : w ::ₘ (d.setWaiters kind ((d.waiters kind).erase id)).waiting = d.waiting :=
      add_right_cancel hwaiting
    have hanswered : (d.setWaiters kind ((d.waiters kind).erase id)).answered = d.answered := by
      cases kind <;> rfl
    have hrange : (d.setWaiters kind ((d.waiters kind).erase id)).channels = d.channels := by
      cases kind <;> rfl
    have htotal : w ::ₘ (d.answered + (d.setWaiters kind ((d.waiters kind).erase id)).waiting) =
        Multiset.range d.channels := by
      rw [← Multiset.add_cons, hrest, h]
    rw [Accounted, answered_observe, hanswered]
    refine Eq.trans ?_ (htotal.trans (congrArg Multiset.range hrange.symm))
    rw [← Multiset.cons_add]
    rfl
  · exact h

omit [DecidableEq Query] in
theorem Accounted.setBuffers (h : d.Accounted) (m : AList fun _ : Query => List Value) :
    (d.setBuffers m).Accounted := h

theorem Accounted.endGet (h : d.Accounted) (id : Query)
    (reply : List Value → Except String (List Value)) : (d.endGet id reply).Accounted :=
  ((h.setBuffers _).observe rfl).settle .get id _

omit [DecidableEq Query] in
theorem Accounted.sendPeer {channel : Nat} {peer : IdentifiedPeer Peer Addr}
    (h : (d.observe (.replied channel (.identified peer))).Accounted) :
    (d.sendPeer channel peer).Accounted := by
  unfold Driver.sendPeer
  dsimp only
  split
  · exact h.observe rfl
  · exact h

omit [DecidableEq Query] in
theorem Accounted.onNextIdentified (h : d.Accounted) : d.onNextIdentified.Accounted := by
  unfold Driver.onNextIdentified
  cases hpending : d.pendingId with
  | nil =>
      have hwaiting : (d.waiting : Multiset Nat) + {d.channels} =
          ((d.idWaiters ++ [d.channels] : List Nat) : Multiset Nat) + values d.putWaiters +
            values d.getWaiters + values d.bootstrapWaiters := by
        rw [← Multiset.coe_add, waiting, Multiset.coe_singleton]
        abel
      have htotal : d.answered + (d.waiting + {d.channels}) = Multiset.range (d.channels + 1) := by
        rw [Multiset.range_succ, ← h, ← add_assoc, ← Multiset.singleton_add, add_comm]
      rw [hwaiting] at htotal
      exact htotal
  | cons peer pendingId =>
      apply Accounted.sendPeer
      exact h.answer (.identified peer)

omit [DecidableEq Query] in
theorem Accounted.onIdentified (h : d.Accounted) (peer : IdentifiedPeer Peer Addr) :
    (d.onIdentified peer).Accounted := by
  have htotal := h
  rw [Accounted, waiting] at htotal
  unfold Driver.onIdentified
  cases hwaiters : d.idWaiters with
  | nil =>
      rw [hwaiters] at htotal
      exact htotal
  | cons w idWaiters =>
      rw [hwaiters, ← Multiset.cons_coe, Multiset.cons_add, Multiset.cons_add, Multiset.cons_add,
        Multiset.add_cons, ← Multiset.cons_add] at htotal
      apply Accounted.sendPeer
      exact htotal

/-! The queries. -/

def Fresh (d : Driver Peer Addr Key Query) (e : SwarmEvent Peer Addr Key Query) : Prop :=
  ∀ id, e.starts = some id → ∀ o ∈ d.history, o.query? ≠ some id

instance (d : Driver Peer Addr Key Query) (e : SwarmEvent Peer Addr Key Query) :
    Decidable (d.Fresh e) :=
  match h : e.starts with
  | none => .isTrue fun id hid => by
      rw [h] at hid
      cases hid
  | some id => decidable_of_iff (∀ o ∈ d.history, o.query? ≠ some id) ⟨fun hall id' hid' => by
      obtain rfl := Option.some.inj (h.symm.trans hid')
      exact hall, fun hfresh => hfresh id h⟩

def found? (id : Query) : Observation Peer Addr Key Query → Option Value
  | .found id' value => if id' = id then some value else none
  | _ => none

def foundFor (id : Query) (history : List (Observation Peer Addr Key Query)) : List Value :=
  (history.filterMap (found? id)).reverse

def failure? (id : Query) : Observation Peer Addr Key Query → Option String
  | .failed id' error => if id' = id then some error else none
  | _ => none

def failureOf (id : Query) (history : List (Observation Peer Addr Key Query)) : Option String :=
  history.findSome? (failure? id)

/-- A lookup is told what was found; where nothing was, that its query failed, if it did. -/
def Tells (values : List Value) (failure : Option String) : Except String (List Value) → Prop
  | .ok told => told = values ∧ (values = [] → failure = none)
  | .error text => values = [] ∧ ∃ error, failure = some error ∧ text = s!"get_record: {error}"

/-- The answer to a lookup tells what was found for its query up to then. -/
def OwnRecords (history : List (Observation Peer Addr Key Query)) : Prop :=
  ∀ later earlier n res, history = later ++ .replied n (.records res) :: earlier →
    ∃ id key, .started id n (.getShardProviders key) ∈ earlier ∧
      Tells (foundFor id earlier) (failureOf id earlier) res

/-- The maps hold the queries that run, and the buffers what was found for them. -/
structure Tracks (d : Driver Peer Addr Key Query) : Prop where
  waits : ∀ kind id n, (d.waiters kind).lookup id = some n ↔
    (∃ r, .started id n r ∈ d.history ∧ r.kind = kind) ∧ .ended id kind ∉ d.history
  ended : ∀ id n r, .started id n r ∈ d.history → .ended id r.kind ∈ d.history → n ∈ d.answered
  buffers : ∀ id, d.getBuffers.lookup id =
    (d.getWaiters.lookup id).map fun _ => foundFor id d.history
  own : OwnRecords d.history

private theorem foundFor_cons {id : Query} {o : Observation Peer Addr Key Query}
    {history : List (Observation Peer Addr Key Query)} :
    foundFor id (o :: history) = foundFor id history ++ (found? id o).toList := by
  cases h : found? id o <;> simp [foundFor, h]

omit [DecidableEq Query] in
private theorem mem_answered_cons {n : Nat} {o : Observation Peer Addr Key Query}
    (h : n ∈ d.answered) :
    n ∈ (d.observe o).answered := by
  rw [answered_observe]
  exact Multiset.mem_add.mpr (.inr h)

theorem OwnRecords.cons {o : Observation Peer Addr Key Query}
    {history : List (Observation Peer Addr Key Query)} (h : OwnRecords history)
    (ho : ∀ n res, o = .replied n (.records res) →
      ∃ id key, .started id n (.getShardProviders key) ∈ history ∧
        Tells (foundFor id history) (failureOf id history) res) : OwnRecords (o :: history) := by
  intro later earlier n res heq
  cases later with
  | nil =>
      obtain ⟨hhead, rfl⟩ := List.cons.inj heq
      exact ho n res hhead
  | cons o' later =>
      obtain ⟨-, htail⟩ := List.cons.inj heq
      exact h later earlier n res htail

theorem Tracks.observe (h : d.Tracks) {o : Observation Peer Addr Key Query}
    (hquery : o.query? = none) (hreply : ∀ n res, o ≠ .replied n (.records res)) :
    (d.observe o).Tracks := by
  have hmem : ∀ (o' : Observation Peer Addr Key Query) {id : Query}, o'.query? = some id →
      (o' ∈ (d.observe o).history ↔ o' ∈ d.history) := by
    intro o' id ho'
    refine List.mem_cons.trans (or_iff_right ?_)
    rintro rfl
    rw [ho'] at hquery
    cases hquery
  have hfound : ∀ id, found? id o = none := by
    intro id
    cases o with
    | found id' value => cases hquery
    | asked | identified | started | failed | ended | replied | gaveUp | lost => rfl
  refine ⟨fun kind id n => ?_, fun id n r hs he => ?_, fun id => ?_, ?_⟩
  · have hold := h.waits kind id n
    simp only [hmem (.started id n _) rfl, hmem (.ended id kind) rfl]
    cases kind <;> exact hold
  · exact mem_answered_cons (h.ended id n r ((hmem _ rfl).mp hs) ((hmem _ rfl).mp he))
  · have hsame : foundFor id (d.observe o).history = foundFor id d.history := by
      rw [Driver.observe, foundFor_cons, hfound id, Option.toList_none, List.append_nil]
    rw [hsame]
    exact h.buffers id
  · exact h.own.cons fun n res heq => absurd heq (hreply n res)

omit [DecidableEq Query] in
private theorem waiters_setWaiters (kind kind' : QueryKind) (m : AList fun _ : Query => Nat) :
    (d.setWaiters kind m).waiters kind' = if kind' = kind then m else d.waiters kind' := by
  cases kind <;> cases kind' <;> rfl

omit [DecidableEq Query] in
private theorem history_setWaiters (kind : QueryKind) (m : AList fun _ : Query => Nat) :
    (d.setWaiters kind m).history = d.history := by
  cases kind <;> rfl

omit [DecidableEq Query] in
private theorem getBuffers_setWaiters (kind : QueryKind) (m : AList fun _ : Query => Nat) :
    (d.setWaiters kind m).getBuffers = d.getBuffers := by
  cases kind <;> rfl

private theorem history_start (id : Query) (request : Request Key) :
    (d.start id request).history = .started id d.channels request :: d.history := by
  cases request <;> rfl

private theorem waiters_start (id : Query) (request : Request Key) (kind : QueryKind) :
    (d.start id request).waiters kind =
      if kind = request.kind then (d.waiters request.kind).insert id d.channels
      else d.waiters kind := by
  cases request <;> cases kind <;> rfl

theorem Tracks.free (h : d.Tracks) {id : Query} (hfresh : ∀ o ∈ d.history, o.query? ≠ some id)
    (kind : QueryKind) : (d.waiters kind).lookup id = none := by
  cases hlookup : (d.waiters kind).lookup id with
  | none => rfl
  | some n =>
      obtain ⟨⟨r, hstarted, -⟩, -⟩ := (h.waits kind id n).mp hlookup
      exact absurd rfl (hfresh _ hstarted)

omit [DecidableEq Query] in
private theorem waiters_setBuffers (m : AList fun _ : Query => List Value) (kind : QueryKind) :
    (d.setBuffers m).waiters kind = d.waiters kind := by
  cases kind <;> rfl

/-- Nobody but the request of a fresh query waits for it. -/
private theorem Tracks.start_waits (h : d.Tracks) {id : Query} (request : Request Key)
    (hfresh : ∀ o ∈ d.history, o.query? ≠ some id) (kind : QueryKind) (id' : Query) (n : Nat) :
    (if kind = request.kind then (d.waiters request.kind).insert id d.channels
      else d.waiters kind).lookup id' = some n ↔
      (∃ r, (.started id' n r : Observation Peer Addr Key Query) ∈
        .started id d.channels request :: d.history ∧ r.kind = kind) ∧
      .ended id' kind ∉ (.started id d.channels request :: d.history :
        List (Observation Peer Addr Key Query)) := by
  have hold := h.waits kind id' n
  simp only [List.mem_cons, Observation.started.injEq, reduceCtorEq, false_or]
  by_cases hid : id' = id
  · subst hid
    have hstart : ∀ r, .started id' n r ∉ d.history := fun r hmem => hfresh _ hmem rfl
    have hend : .ended id' kind ∉ d.history := fun hmem => hfresh _ hmem rfl
    split
    · rename_i hkind
      rw [AList.lookup_insert]
      constructor
      · intro hn
        exact ⟨⟨request, .inl ⟨rfl, (Option.some.inj hn).symm, rfl⟩, hkind.symm⟩, hend⟩
      · rintro ⟨⟨r, ⟨-, rfl, -⟩ | hmem, -⟩, -⟩
        · rfl
        · exact absurd hmem (hstart r)
    · rename_i hkind
      rw [h.free hfresh kind]
      constructor
      · intro hn
        cases hn
      · rintro ⟨⟨r, ⟨-, -, rfl⟩ | hmem, hr⟩, -⟩
        · exact absurd hr.symm hkind
        · exact absurd hmem (hstart r)
  · have hlookup : (if kind = request.kind then (d.waiters request.kind).insert id d.channels
        else d.waiters kind).lookup id' = (d.waiters kind).lookup id' := by
      split
      · rename_i hkind
        rw [AList.lookup_insert_ne hid, hkind]
      · rfl
    rw [hlookup, hold]
    simp only [hid, false_and, false_or]

theorem Tracks.start (h : d.Tracks) {id : Query} (request : Request Key)
    (hfresh : ∀ o ∈ d.history, o.query? ≠ some id) (m : AList fun _ : Query => List Value)
    (hbuffers : ∀ id', m.lookup id' =
      (((d.setBuffers m).start id request).getWaiters.lookup id').map fun _ =>
        foundFor id' d.history) :
    ((d.setBuffers m).start id request).Tracks := by
  have hhist : ((d.setBuffers m).start id request).history =
      .started id d.channels request :: d.history := history_start id request
  have hother : ∀ {id' : Query} {o : Observation Peer Addr Key Query}, o.query? = some id' →
      o ∈ d.history → id' ≠ id := by
    rintro id' o ho hmem rfl
    exact hfresh o hmem ho
  have hanswered : ((d.setBuffers m).start id request).answered = d.answered := by
    rw [answered, answered, hhist]
    rfl
  refine ⟨fun kind id' n => ?_, fun id' n r hs he => ?_, fun id' => ?_, ?_⟩
  · rw [waiters_start, waiters_setBuffers, waiters_setBuffers, hhist]
    exact h.start_waits request hfresh kind id' n
  · rw [hhist] at hs he
    rw [hanswered]
    have hend : .ended id' r.kind ∈ d.history := by simpa using he
    rcases List.mem_cons.mp hs with heq | hs
    · obtain ⟨rfl, -, -⟩ := Observation.started.inj heq
      exact absurd rfl (hother rfl hend)
    · exact h.ended id' n r hs hend
  · rw [hhist, foundFor_cons]
    have hbuf : ((d.setBuffers m).start id request).getBuffers = m := by
      cases request <;> rfl
    rw [hbuf, hbuffers id']
    simp only [found?, Option.toList_none, List.append_nil]
  · rw [hhist]
    exact h.own.cons fun n res heq => by cases heq

private theorem settle_cases (d : Driver Peer Addr Key Query) (kind : QueryKind) (id : Query)
    (reply : Reply Peer Addr) :
    (∃ w, (d.waiters kind).lookup id = some w ∧
        (d.settle kind id reply).history = .replied w reply :: d.history) ∨
      (d.waiters kind).lookup id = none ∧ (d.settle kind id reply).history = d.history := by
  unfold settle
  split
  · rename_i w hw
    exact .inl ⟨w, hw, congrArg _ (history_setWaiters kind _)⟩
  · rename_i hnone
    exact .inr ⟨hnone, rfl⟩

private theorem lookup_settle (kind kind' : QueryKind) (id id' : Query) (reply : Reply Peer Addr) :
    ((d.settle kind id reply).waiters kind').lookup id' =
      if kind' = kind ∧ id' = id then none else (d.waiters kind').lookup id' := by
  have hwaiters : ∀ (d : Driver Peer Addr Key Query) (o : Observation Peer Addr Key Query),
      (d.observe o).waiters kind' = d.waiters kind' := by
    intro d o
    cases kind' <;> rfl
  unfold settle
  split
  · rw [hwaiters, waiters_setWaiters]
    by_cases hkind : kind' = kind
    · subst hkind
      by_cases hid : id' = id
      · subst hid
        rw [if_pos rfl, if_pos ⟨rfl, rfl⟩, AList.lookup_erase]
      · rw [if_pos rfl, if_neg fun h => hid h.2, AList.lookup_erase_ne hid]
    · rw [if_neg hkind, if_neg fun h => hkind h.1]
  · rename_i hnone
    split
    · rename_i hsame
      obtain ⟨rfl, rfl⟩ := hsame
      exact hnone
    · rfl

private theorem getBuffers_settle (kind : QueryKind) (id : Query) (reply : Reply Peer Addr) :
    (d.settle kind id reply).getBuffers = d.getBuffers := by
  unfold settle
  split
  · exact getBuffers_setWaiters kind _
  · rfl

/-- `d'` is `d` after the query `id` has ended: who waited for it has the reply and waits no
more. -/
structure Closes (kind : QueryKind) (id : Query) (reply : Reply Peer Addr)
    (d d' : Driver Peer Addr Key Query) : Prop where
  history : (∃ w, (d.waiters kind).lookup id = some w ∧
      d'.history = .replied w reply :: .ended id kind :: d.history) ∨
    (d.waiters kind).lookup id = none ∧ d'.history = .ended id kind :: d.history
  lookup : ∀ kind' id', (d'.waiters kind').lookup id' =
    if kind' = kind ∧ id' = id then none else (d.waiters kind').lookup id'

private theorem closes_settle (kind : QueryKind) (id : Query) (reply : Reply Peer Addr)
    (m : AList fun _ : Query => List Value) :
    Closes kind id reply d
      (((d.setBuffers m).observe (.ended id kind)).settle kind id reply) := by
  have hended : ((d.setBuffers m).observe (.ended id kind)).history =
      .ended id kind :: d.history := rfl
  have hwaiters : ∀ kind', ((d.setBuffers m).observe (.ended id kind)).waiters kind' =
      d.waiters kind' := by
    intro kind'
    cases kind' <;> rfl
  have hcases := settle_cases ((d.setBuffers m).observe (.ended id kind)) kind id reply
  rw [hended, hwaiters] at hcases
  refine ⟨hcases, fun kind' id' => ?_⟩
  rw [lookup_settle, hwaiters]

section Closed

variable {kind : QueryKind} {id : Query} {reply : Reply Peer Addr}
  {d' : Driver Peer Addr Key Query}

private theorem Closes.started (hc : Closes kind id reply d d') (id' : Query) (n : Nat)
    (r : Request Key) : .started id' n r ∈ d'.history ↔ .started id' n r ∈ d.history := by
  rcases hc.history with ⟨w, -, hhist⟩ | ⟨-, hhist⟩
  · simp [hhist]
  · simp [hhist]

private theorem Closes.ended (hc : Closes kind id reply d d') (id' : Query) (kind' : QueryKind) :
    .ended id' kind' ∈ d'.history ↔
      id' = id ∧ kind' = kind ∨ .ended id' kind' ∈ d.history := by
  rcases hc.history with ⟨w, -, hhist⟩ | ⟨-, hhist⟩
  · simp [hhist]
  · simp [hhist]

private theorem Closes.answered (hc : Closes kind id reply d d') {n : Nat} (hn : n ∈ d.answered) :
    n ∈ d'.answered := by
  rcases hc.history with ⟨w, -, hhist⟩ | ⟨-, hhist⟩
  · rw [Driver.answered, hhist]
    exact Multiset.mem_coe.mpr (List.mem_cons_of_mem _ hn)
  · rw [Driver.answered, hhist]
    exact hn

private theorem Closes.found (hc : Closes kind id reply d d') (id' : Query) :
    foundFor id' d'.history = foundFor id' d.history := by
  rcases hc.history with ⟨w, -, hhist⟩ | ⟨-, hhist⟩
  · rw [hhist]
    rfl
  · rw [hhist]
    rfl

private theorem Closes.waits (hc : Closes kind id reply d d') (h : d.Tracks) (kind' : QueryKind)
    (id' : Query) (n : Nat) : (d'.waiters kind').lookup id' = some n ↔
      (∃ r, .started id' n r ∈ d'.history ∧ r.kind = kind') ∧ .ended id' kind' ∉ d'.history := by
  rw [hc.lookup, hc.ended]
  simp only [hc.started]
  split
  · rename_i hsame
    constructor
    · intro hn
      cases hn
    · rintro ⟨-, hnot⟩
      exact absurd (.inl ⟨hsame.2, hsame.1⟩) hnot
  · rename_i hsame
    rw [h.waits kind' id' n, or_iff_right fun heq => hsame ⟨heq.2, heq.1⟩]

/-- A query that has ended is answered: it had ended before, or it is the one that ends now and
its waiter is there. -/
private theorem Closes.answers (hc : Closes kind id reply d d') (h : d.Tracks) {id' : Query}
    {n : Nat} {r : Request Key} (hs : .started id' n r ∈ d'.history)
    (he : .ended id' r.kind ∈ d'.history) : n ∈ d'.answered := by
  rw [hc.started] at hs
  by_cases hold : .ended id' r.kind ∈ d.history
  · exact hc.answered (h.ended id' n r hs hold)
  · obtain ⟨rfl, rfl⟩ := ((hc.ended id' r.kind).mp he).resolve_right hold
    have hwait := (h.waits r.kind id' n).mpr ⟨⟨r, hs, rfl⟩, hold⟩
    rcases hc.history with ⟨w, hw, hhist⟩ | ⟨hnone, -⟩
    · obtain rfl := Option.some.inj (hwait.symm.trans hw)
      rw [Driver.answered, hhist]
      exact Multiset.mem_coe.mpr List.mem_cons_self
    · rw [hwait] at hnone
      cases hnone

private theorem Closes.own (hc : Closes kind id reply d d') (h : d.Tracks)
    (hreply : ∀ res, reply = .records res → kind = .get ∧ ∀ w, d.getWaiters.lookup id = some w →
      Tells ((d.getBuffers.lookup id).getD []) (failureOf id d.history) res) :
    OwnRecords d'.history := by
  have hown : OwnRecords (.ended id kind :: d.history) :=
    h.own.cons fun n res heq => by cases heq
  rcases hc.history with ⟨w, hw, hhist⟩ | ⟨-, hhist⟩
  · rw [hhist]
    refine hown.cons fun n res heq => ?_
    obtain ⟨rfl, hres⟩ := Observation.replied.inj heq
    obtain ⟨rfl, htells⟩ := hreply res hres
    obtain ⟨⟨r, hs, hkind⟩, -⟩ := (h.waits .get id w).mp hw
    have hgetWaits : d.getWaiters.lookup id = some w := hw
    replace htells := htells w hgetWaits
    rw [h.buffers, hgetWaits, Option.map_some, Option.getD_some] at htells
    cases r with
    | getShardProviders key =>
        refine ⟨id, key, List.mem_cons_of_mem _ hs, ?_⟩
        rw [foundFor_cons]
        simpa [found?, failureOf, List.findSome?_cons, failure?] using htells
    | announceShard | bootstrap => cases hkind
  · rw [hhist]
    exact hown

end Closed

theorem Tracks.settle (h : d.Tracks) (kind : QueryKind) (id : Query) {reply : Reply Peer Addr}
    (m : AList fun _ : Query => List Value)
    (hreply : ∀ res, reply = .records res → kind = .get ∧ ∀ w, d.getWaiters.lookup id = some w →
      Tells ((d.getBuffers.lookup id).getD []) (failureOf id d.history) res)
    (hbuffers : ∀ id', m.lookup id' = if kind = .get ∧ id' = id then none
      else d.getBuffers.lookup id') :
    (((d.setBuffers m).observe (.ended id kind)).settle kind id reply).Tracks := by
  have hc := closes_settle (d := d) kind id reply m
  have hbuf : (((d.setBuffers m).observe (.ended id kind)).settle kind id reply).getBuffers = m :=
    getBuffers_settle kind id reply
  refine ⟨hc.waits h, fun id' n r => hc.answers h, fun id' => ?_, hc.own h hreply⟩
  rw [hbuf, hbuffers, hc.found]
  rw [show
    (((d.setBuffers m).observe (.ended id kind)).settle kind id reply).getWaiters.lookup id' =
    if .get = kind ∧ id' = id then none else d.getWaiters.lookup id' from hc.lookup .get id']
  by_cases hsame : kind = .get ∧ id' = id
  · rw [if_pos hsame, if_pos ⟨hsame.1.symm, hsame.2⟩, Option.map_none]
  · rw [if_neg hsame, if_neg fun heq => hsame ⟨heq.1.symm, heq.2⟩, h.buffers]

theorem Tracks.endGet (h : d.Tracks) (id : Query)
    (reply : List Value → Except String (List Value))
    (hreply : ∀ w, d.getWaiters.lookup id = some w →
      ∀ buf, Tells buf (failureOf id d.history) (reply buf)) :
    (d.endGet id reply).Tracks := by
  refine h.settle .get id _ (fun res heq => ⟨rfl, fun w hw => ?_⟩) fun id' => ?_
  · obtain rfl := Reply.records.inj heq
    exact hreply w hw _
  · by_cases hid : id' = id
    · subst hid
      rw [if_pos ⟨rfl, rfl⟩, AList.lookup_erase]
    · rw [if_neg fun h => hid h.2, AList.lookup_erase_ne hid]

theorem Tracks.onFoundRecord (h : d.Tracks) (id : Query) (value : Value) :
    (d.onFoundRecord id value).Tracks := by
  have hhist : (d.onFoundRecord id value).history = .found id value :: d.history := by
    unfold Driver.onFoundRecord
    split <;> rfl
  have hwaiters : ∀ kind, (d.onFoundRecord id value).waiters kind = d.waiters kind := by
    intro kind
    unfold Driver.onFoundRecord
    split <;> cases kind <;> rfl
  refine ⟨fun kind id' n => ?_, fun id' n r hs he => ?_, fun id' => ?_, ?_⟩
  · have hold := h.waits kind id' n
    rw [hwaiters, hhist]
    simpa using hold
  · rw [hhist] at hs he
    have hn := h.ended id' n r (by simpa using hs) (by simpa using he)
    rw [answered, hhist]
    exact hn
  · have hget : (d.onFoundRecord id value).getWaiters = d.getWaiters := hwaiters .get
    have hbuf := h.buffers
    rw [hget, hhist, foundFor_cons]
    unfold Driver.onFoundRecord
    split
    · rename_i buf hlookup
      change (d.getBuffers.insert id (buf ++ [value])).lookup id' = _
      by_cases hid : id' = id
      · subst hid
        rw [hbuf] at hlookup
        obtain ⟨w, hw, rfl⟩ := Option.map_eq_some_iff.mp hlookup
        rw [AList.lookup_insert, hw]
        simp [found?]
      · rw [AList.lookup_insert_ne hid, hbuf]
        simp [found?, Ne.symm hid]
    · rename_i hlookup
      change d.getBuffers.lookup id' = _
      rw [hbuf]
      by_cases hid : id' = id
      · subst hid
        rw [hbuf, Option.map_eq_none_iff] at hlookup
        rw [hlookup, Option.map_none, Option.map_none]
      · simp [found?, Ne.symm hid]
  · rw [hhist]
    exact h.own.cons fun n res heq => by cases heq

/-- The channels are accounted for, and the maps hold what they should. -/
structure Books (d : Driver Peer Addr Key Query) : Prop where
  accounted : d.Accounted
  tracks : d.Tracks

structure Sound (d : Driver Peer Addr Key Query) : Prop extends Books d where
  failed : ∀ id error, .failed id error ∈ d.history → .ended id .get ∈ d.history

theorem Sound.start : Sound ({} : Driver Peer Addr Key Query) where
  accounted := rfl
  failed := nofun
  tracks := by
    refine ⟨fun kind id n => ?_, fun id n r hs => ?_, fun id => rfl,
      fun later earlier n res heq => ?_⟩
    · cases kind <;> simp [waiters]
    · cases hs
    · cases later <;> cases heq

private theorem Books.startQuery (h : d.Books) {id : Query} (request : Request Key)
    (hkind : request.kind ≠ .get) (hfresh : ∀ o ∈ d.history, o.query? ≠ some id) :
    (d.start id request).Books where
  accounted := h.accounted.start (h.tracks.free hfresh _)
  tracks := by
    refine h.tracks.start request hfresh d.getBuffers fun id' => ?_
    have hget : ((d.setBuffers d.getBuffers).start id request).getWaiters = d.getWaiters := by
      cases request with
      | getShardProviders key => exact absurd rfl hkind
      | announceShard | bootstrap => rfl
    rw [hget]
    exact h.tracks.buffers id'

theorem Books.onGetShardProviders (h : d.Books) (key : Key) {id : Query}
    (hfresh : ∀ o ∈ d.history, o.query? ≠ some id) : (d.onGetShardProviders key id).Books where
  accounted := (h.accounted.setBuffers _).start (h.tracks.free hfresh .get)
  tracks := by
    refine h.tracks.start (.getShardProviders key) hfresh _ fun id' => ?_
    change (d.getBuffers.insert id []).lookup id' =
      ((d.getWaiters.insert id d.channels).lookup id').map _
    by_cases hid : id' = id
    · subst hid
      rw [AList.lookup_insert, AList.lookup_insert, Option.map_some, foundFor]
      have hnone : d.history.filterMap (found? id') = [] := by
        refine List.filterMap_eq_nil_iff.mpr fun o ho => ?_
        cases o with
        | found id value =>
            have hne : id ≠ id' := fun heq => hfresh _ ho (congrArg some heq)
            simp only [found?, if_neg hne]
        | asked | identified | started | failed | ended | replied | gaveUp | lost => rfl
      rw [hnone, List.reverse_nil]
    · rw [AList.lookup_insert_ne hid, AList.lookup_insert_ne hid, h.tracks.buffers]

omit [DecidableEq Query] in
private theorem answered_eq (hhist : d'.history = d.history) : d'.answered = d.answered := by
  rw [answered, hhist, answered]

theorem Tracks.congr (h : d.Tracks) (hhist : d'.history = d.history)
    (hwaiters : ∀ kind, d'.waiters kind = d.waiters kind) (hbuf : d'.getBuffers = d.getBuffers) :
    d'.Tracks where
  waits kind id n := by
    rw [hwaiters, hhist]
    exact h.waits kind id n
  ended id n r hs he := by
    rw [hhist] at hs he
    rw [answered_eq hhist]
    exact h.ended id n r hs he
  buffers id := by
    have hget : d'.getWaiters = d.getWaiters := hwaiters .get
    rw [hbuf, hget, hhist]
    exact h.buffers id
  own := by
    rw [hhist]
    exact h.own

theorem Tracks.newChannel (h : d.Tracks) : d.newChannel.Tracks :=
  h.congr rfl (fun kind => by cases kind <;> rfl) rfl

theorem Tracks.sendPeer (h : d.Tracks) (channel : Nat) (peer : IdentifiedPeer Peer Addr) :
    (d.sendPeer channel peer).Tracks := by
  have hsent : (d.observe (.replied channel (.identified peer))).Tracks :=
    h.observe rfl fun _ _ heq => by cases heq
  unfold Driver.sendPeer
  dsimp only
  split
  · exact hsent.observe rfl fun _ _ heq => by cases heq
  · exact hsent

theorem Tracks.onNextIdentified (h : d.Tracks) : d.onNextIdentified.Tracks := by
  have hcalled : (d.newChannel.observe (.asked d.channels)).Tracks :=
    h.newChannel.observe rfl fun _ _ heq => by cases heq
  unfold Driver.onNextIdentified
  split
  · apply Tracks.sendPeer
    exact hcalled.congr rfl (fun kind => by cases kind <;> rfl) rfl
  · exact hcalled.congr rfl (fun kind => by cases kind <;> rfl) rfl

theorem Tracks.onIdentified (h : d.Tracks) (peer : IdentifiedPeer Peer Addr) :
    (d.onIdentified peer).Tracks := by
  have hlearned : (d.observe (.identified peer)).Tracks :=
    h.observe rfl fun _ _ heq => by cases heq
  unfold Driver.onIdentified
  split
  · apply Tracks.sendPeer
    exact hlearned.congr rfl (fun kind => by cases kind <;> rfl) rfl
  · exact hlearned.congr rfl (fun kind => by cases kind <;> rfl) rfl

section Adds

variable {P : Observation Peer Addr Key Query → Prop}
  {old : List (Observation Peer Addr Key Query)}

theorem Extends.settle (h : Extends P old d.history) {kind : QueryKind} {id : Query}
    {reply : Reply Peer Addr} (hreply : ∀ w, P (.replied w reply)) :
    Extends P old (d.settle kind id reply).history := by
  unfold Driver.settle
  split
  · refine Extends.observe ?_ (hreply _)
    rw [history_setWaiters]
    exact h
  · exact h

theorem Extends.endGet (h : Extends P old d.history) {id : Query}
    {reply : List Value → Except String (List Value)} (hended : P (.ended id .get))
    (hreply : ∀ w, P (.replied w (.records (reply ((d.getBuffers.lookup id).getD []))))) :
    Extends P old (d.endGet id reply).history :=
  (Extends.observe (d := d.setBuffers (d.getBuffers.erase id)) h hended).settle hreply

theorem Extends.start (h : Extends P old d.history) {id : Query} {request : Request Key}
    (ho : P (.started id d.channels request)) :
    Extends P old (d.start id request).history := by
  rw [history_start]
  exact h.observe ho

def Adds (n : Nat) (e : SwarmEvent Peer Addr Key Query) : Observation Peer Addr Key Query → Prop
  | .started id channel request => channel = n ∧ e.asks = some (id, request)
  | .found id value => e = .foundRecord id value
  | .failed id error => e = .getRecordFailed id error
  | _ => True

theorem extends_turn (d : Driver Peer Addr Key Query) (e : SwarmEvent Peer Addr Key Query) :
    Extends (Adds d.channels e) d.history (d.turn e).history := by
  have hsame : Extends (Adds d.channels e) d.history d.history := .refl
  cases e with
  | dial addr result => exact hsame.observe trivial
  | nextIdentified =>
      change Extends _ _ d.onNextIdentified.history
      unfold onNextIdentified
      have hcalled := hsame.observe (o := .asked d.channels) trivial
      split
      · refine Extends.sendPeer ?_ trivial trivial
        exact hcalled
      · exact hcalled
  | addBootstrap peer addr => exact hsame
  | bootstrap started =>
      cases started with
      | ok id => exact hsame.start ⟨rfl, rfl⟩
      | error e => exact hsame.observe trivial
  | announceShard key value started =>
      cases started with
      | ok id => exact hsame.start ⟨rfl, rfl⟩
      | error e => exact hsame.observe trivial
  | getShardProviders key id => exact hsame.start ⟨rfl, rfl⟩
  | shutdown => exact hsame
  | identifyReceived peer =>
      change Extends _ _ (d.onIdentified peer).history
      unfold onIdentified
      have hlearned := hsame.observe (o := .identified peer) trivial
      split
      · refine Extends.sendPeer ?_ trivial trivial
        exact hlearned
      · exact hlearned
  | putRecord id result =>
      exact (hsame.observe (o := .ended id .put) trivial).settle fun w => trivial
  | foundRecord id value =>
      change Extends _ _ (d.onFoundRecord id value).history
      unfold onFoundRecord
      split <;> exact hsame.observe rfl
  | finishedWithNoAdditionalRecord id last =>
      cases last with
      | true => exact hsame.endGet trivial fun w => trivial
      | false => exact hsame
  | getRecordFailed id error =>
      exact (hsame.observe (o := .failed id error) rfl).endGet trivial fun w => trivial
  | bootstrapProgressed id last result =>
      cases last with
      | true => exact (hsame.observe (o := .ended id .bootstrap) trivial).settle fun w => trivial
      | false => exact hsame
  | giveUp channel => exact hsame.observe trivial
  | other => exact hsame

end Adds

private theorem tells_failed (error : String) (buf : List Value) :
    Tells buf (some error) (if buf = [] then .error s!"get_record: {error}" else .ok buf) := by
  split
  · rename_i hempty
    exact ⟨hempty, error, rfl, rfl⟩
  · rename_i hsome
    exact ⟨rfl, fun hempty => absurd hempty hsome⟩

private theorem Sound.unfailed (h : d.Sound) {id : Query} {w : Nat}
    (hw : d.getWaiters.lookup id = some w) :
    failureOf id d.history = none := by
  have hrunning := ((h.tracks.waits .get id w).mp hw).2
  rw [failureOf, List.findSome?_eq_none_iff]
  intro o ho
  cases o with
  | failed id' error =>
      have hne : id' ≠ id := by
        rintro rfl
        exact hrunning (h.failed id' error ho)
      simp only [failure?, if_neg hne]
  | asked | identified | started | found | ended | replied | gaveUp | lost => rfl

/-- A query that takes no records ends. -/
theorem Books.settle (h : d.Books) {kind : QueryKind} (hkind : kind ≠ .get) (id : Query)
    {reply : Reply Peer Addr} (hreply : ∀ res, reply ≠ .records res) :
    ((d.observe (.ended id kind)).settle kind id reply).Books where
  accounted := (h.accounted.observe rfl).settle kind id reply
  tracks := by
    refine h.tracks.settle kind id d.getBuffers
      (fun res heq => absurd heq (hreply res)) fun id' => ?_
    rw [if_neg fun heq => hkind heq.1]

theorem Books.answer (h : d.Books) {reply : Reply Peer Addr}
    (hreply : ∀ res, reply ≠ .records res) :
    (d.newChannel.observe (.replied d.channels reply)).Books where
  accounted := h.accounted.answer reply
  tracks := h.tracks.newChannel.observe rfl fun _ res heq =>
    hreply res (Observation.replied.inj heq).2

private theorem Sound.books_turn (h : d.Sound) {e : SwarmEvent Peer Addr Key Query}
    (hfresh : d.Fresh e) :
    (d.turn e).Books := by
  cases e with
  | dial addr result => exact h.toBooks.answer (by simp)
  | nextIdentified => exact ⟨h.accounted.onNextIdentified, h.tracks.onNextIdentified⟩
  | addBootstrap peer addr =>
      exact ⟨h.accounted, h.tracks.congr rfl (fun kind => by cases kind <;> rfl) rfl⟩
  | bootstrap started =>
      cases started with
      | ok id => exact h.toBooks.startQuery .bootstrap (by simp [Request.kind]) (hfresh id rfl)
      | error e => exact h.toBooks.answer (by simp)
  | announceShard key value started =>
      cases started with
      | ok id =>
          exact h.toBooks.startQuery (.announceShard key value) (by simp [Request.kind])
            (hfresh id rfl)
      | error e => exact h.toBooks.answer (by simp)
  | getShardProviders key id => exact h.toBooks.onGetShardProviders key (hfresh id rfl)
  | shutdown => exact ⟨h.accounted, h.tracks.congr rfl (fun kind => by cases kind <;> rfl) rfl⟩
  | identifyReceived peer => exact ⟨h.accounted.onIdentified peer, h.tracks.onIdentified peer⟩
  | putRecord id result => exact h.toBooks.settle (by decide) id (by simp)
  | foundRecord id value =>
      refine ⟨?_, h.tracks.onFoundRecord id value⟩
      change (d.onFoundRecord id value).Accounted
      unfold Driver.onFoundRecord
      split
      · exact (h.accounted.setBuffers _).observe rfl
      · exact h.accounted.observe rfl
  | finishedWithNoAdditionalRecord id last =>
      cases last with
      | true =>
          refine ⟨h.accounted.endGet id _, h.tracks.endGet id _ fun w hw buf => ⟨rfl, fun _ => ?_⟩⟩
          exact h.unfailed hw
      | false => exact h.toBooks
  | getRecordFailed id error =>
      have hfailed : (d.observe (.failed id error)).Tracks :=
        h.tracks.observe rfl fun _ _ heq => by cases heq
      have hlast : failureOf id (d.observe (.failed id error)).history = some error := by
        simp only [failureOf, observe, List.findSome?_cons, failure?, if_pos]
      change (d.onGetRecordFailed id error).Books
      refine ⟨(h.accounted.observe rfl).endGet id _, hfailed.endGet id _ fun w hw buf => ?_⟩
      rw [hlast]
      exact tells_failed error buf
  | bootstrapProgressed id last result =>
      cases last with
      | true => exact h.toBooks.settle (by decide) id (by simp)
      | false => exact h.toBooks
  | giveUp channel =>
      refine ⟨h.accounted.observe rfl, ?_⟩
      refine Tracks.observe ?_ rfl fun _ _ heq => by cases heq
      exact h.tracks.congr rfl (fun kind => by cases kind <;> rfl) rfl
  | other => exact h.toBooks

theorem Sound.turn (h : d.Sound) {e : SwarmEvent Peer Addr Key Query} (hfresh : d.Fresh e) :
    (d.turn e).Sound where
  toBooks := h.books_turn hfresh
  failed id error hfailed := by
    have hturn := extends_turn d e
    rcases hturn.mem hfailed with hold | rfl
    · exact hturn.subset (h.failed id error hold)
    · rcases settle_cases
        (d := ((d.observe (.failed id error)).setBuffers _).observe (.ended id .get))
        .get id _ with ⟨w, -, hhist⟩ | ⟨-, hhist⟩
      · exact hhist ▸ List.mem_cons_of_mem _ List.mem_cons_self
      · exact hhist ▸ List.mem_cons_self

theorem Sound.run {es : List (SwarmEvent Peer Addr Key Query)} (hrun : Run step Fresh {} es d) :
    d.Sound :=
  hrun.invariant .start fun x e y h hfresh hs => by
    rw [eq_turn hs]
    exact h.turn hfresh

end Queries

end Driver

def samplePeer (n : Nat) : IdentifiedPeer Nat Nat := ⟨n, "/intelnav/v1", "intelnav-net", [n]⟩

/-- Two lookups at a time, one of them cut short, and a call for a peer that is given up. -/
def twoLookups : List (SwarmEvent Nat Nat Nat Nat) :=
  [.nextIdentified, .giveUp 0, .getShardProviders 10 0, .getShardProviders 11 1, .foundRecord 1 [5],
    .identifyReceived (samplePeer 3), .foundRecord 0 [4], .identifyReceived (samplePeer 4),
    .foundRecord 1 [6], .getRecordFailed 1 "timeout", .finishedWithNoAdditionalRecord 0 true,
    .nextIdentified, .identifyReceived (samplePeer 5)]

theorem identified_in_order_twoLookups :
    ∃ d : Driver Nat Nat Nat Nat, exec Driver.step {} twoLookups = some d ∧
      d.handedOut = [(0, samplePeer 3), (3, samplePeer 4)] ∧ (3, samplePeer 4) ∉ d.lost ∧
      d.pendingId = d.identified.drop d.asked.length ∧
      ∃ later earlier, d.history = later ++ .replied 0 (.identified (samplePeer 3)) :: earlier ∧
        .gaveUp 0 ∈ earlier := by
  have hfacts : (exec Driver.step {} twoLookups).any fun d =>
      d.handedOut = [(0, samplePeer 3), (3, samplePeer 4)] ∧ (3, samplePeer 4) ∉ d.lost ∧
        (0, samplePeer 3) ∈ d.lost := by
    decide +kernel
  obtain ⟨d, hd, hfacts⟩ := (Option.any_eq_true _ _).mp hfacts
  obtain ⟨hhanded, hheard, hlost⟩ := of_decide_eq_true hfacts
  obtain ⟨-, hpending, -, hgone⟩ :=
    Driver.identified_in_order (Run.of_exec _ hd fun _ _ _ => trivial)
  exact ⟨d, hd, hhanded, hheard, hpending, (hgone 0 (samplePeer 3)).mp hlost⟩

end IntelNav.Net
