import IntelNav.App.Candidates
import IntelNav.Transition.Cell
import IntelNav.Transition.Run
import IntelNav.Wire.Cbor

/-! The chain target that the user sets and the turns write back (`ChainDriver` of
`crates/app/src/chain_driver.rs`). -/

set_option autoImplicit false
set_option relaxedAutoImplicit false

namespace IntelNav.App

open IntelNav.Core IntelNav.Runtime IntelNav.Transition IntelNav.Wire

variable {Addr Conn W : Type}

/-- How far `ChainDriver::run` has come in a turn. -/
inductive TurnPhase
  | copied | locked | connected | running
  deriving DecidableEq

/-- The driver's target, the turns under way, the turn that holds the model's mutex, and the
network. -/
structure TargetDriver (Addr W : Type) where
  target : Cell Nat (Option (ChainTarget Addr))
  turns : Nat → Option TurnPhase
  model : Option Nat
  world : W

def TargetDriver.new (w : W) : TargetDriver Addr W := ⟨.new none, fun _ => none, none, w⟩

/-- A call of `set_target`, a step of turn `i`, or a change of the network. -/
inductive TargetEvent (Addr W : Type)
  | setTarget (t : Option (ChainTarget Addr))
  | copy (i : Nat)
  | lock (i : Nat)
  | connect (i : Nat) (modelName : String) (nBlocks : UInt16) (wireDtype : Dtype)
  | persist (i : Nat)
  | finish (i : Nat)
  | world (w : W)

namespace TargetDriver

/-- Turn `i` is over. -/
def close (s : TargetDriver Addr W) (i : Nat) : TargetDriver Addr W :=
  { s with
    target := s.target.drop i
    turns := Function.update s.turns i none
    model := if s.model = some i then none else s.model }

section Machine

variable (net : Net Addr Conn W) (cd : Codec)

/-- A turn copies the target, takes the model's mutex, connects with its copy, and writes the copy
back if the chain stands; an error on the way ends it. -/
def step (s : TargetDriver Addr W) : TargetEvent Addr W → Option (TargetDriver Addr W)
  | .setTarget t => some { s with target := s.target.assign t }
  | .copy i =>
      match s.turns i, s.target.value with
      | none, some _ =>
          some
            { s with
              target := s.target.copyOut i, turns := Function.update s.turns i (some .copied) }
      | _, _ => none
  | .lock i =>
      if s.turns i = some .copied ∧ s.model = none then
        some { s with turns := Function.update s.turns i (some .locked), model := some i }
      else none
  | .connect i modelName nBlocks wireDtype =>
      match s.turns i, s.target.copies i with
      | some .locked, some (_, some t) =>
          match connectWithFailover net cd modelName nBlocks wireDtype t s.world with
          | (.ok _, t, _, w) =>
              some
                { s with
                  target := s.target.revise i (some t)
                  turns := Function.update s.turns i (some .connected)
                  world := w }
          | (.error _, _, _, w) => some { s.close i with world := w }
      | _, _ => none
  | .persist i =>
      if s.turns i = some .connected then
        some
          { s with
            target := s.target.writeBack i, turns := Function.update s.turns i (some .running) }
      else none
  | .finish i =>
      if s.turns i = some .copied ∨ s.turns i = some .running then some (s.close i) else none
  | .world w => some { s with world := w }

end Machine

/-- A turn that writes back has its copy from the last call of `set_target`. -/
def Fresh (s : TargetDriver Addr W) : TargetEvent Addr W → Prop
  | .persist i => s.target.Fresh i
  | _ => True

instance (s : TargetDriver Addr W) (e : TargetEvent Addr W) : Decidable (s.Fresh e) := by
  unfold Fresh
  split <;> infer_instance

end TargetDriver

def Swapped (a b : Option (ChainTarget Addr)) : Prop :=
  ∃ is : List Nat, b = a.map fun t => t.failovers is

theorem Swapped.refl (a : Option (ChainTarget Addr)) : Swapped a a :=
  ⟨[], by cases a <;> rfl⟩

/-- `target()` is what the last call of `set_target` gave, up to failovers, and comes from that
call. -/
def TargetDriver.UsersRoute (s : TargetDriver Addr W) : Prop :=
  s.target.Current ∧ Swapped s.target.last s.target.value

/-! What a step does to the target. -/

section Connect

variable (net : Net Addr Conn W) (cd : Codec) (modelName : String) (nBlocks : UInt16)
  (wireDtype : Dtype)

private theorem connectAttempts_failovers (left : Nat) (t : ChainTarget Addr) (w : W) :
    ∃ is, (connectAttempts net cd modelName nBlocks wireDtype left t w).2.1 = t.failovers is := by
  induction left generalizing t w with
  | zero =>
      refine ⟨[], ?_⟩
      unfold connectAttempts
      split
      · rfl
      · split
        · rename_i heq
          cases heq
        · rfl
  | succ left ih =>
      unfold connectAttempts
      split
      · exact ⟨[], rfl⟩
      · rename_i e w' _
        cases hi : failedIndex e with
        | none => exact ⟨[], rfl⟩
        | some i =>
            dsimp only
            cases hswap : t.failover i with
            | mk swapped t' =>
                have ht' : t' = t.failovers [i] := by
                  simp [ChainTarget.failovers, hswap]
                cases swapped with
                | false => exact ⟨[i], ht'⟩
                | true =>
                    obtain ⟨is, his⟩ := ih t' w'
                    refine ⟨i :: is, ?_⟩
                    simpa [ChainTarget.failovers, hswap] using his

end Connect

theorem Swapped.failovers {a : Option (ChainTarget Addr)} {t : ChainTarget Addr}
    (h : Swapped a (some t)) (is : List Nat) : Swapped a (some (t.failovers is)) := by
  obtain ⟨js, hjs⟩ := h
  cases a with
  | none => cases hjs
  | some t₀ =>
      obtain rfl : t = t₀.failovers js := by simpa using hjs
      exact ⟨js ++ is, by simp [ChainTarget.failovers]⟩

namespace TargetDriver

variable (net : Net Addr Conn W) (cd : Codec)

def TargetStep (c c' : Cell Nat (Option (ChainTarget Addr))) : TargetEvent Addr W → Prop
  | .setTarget t => c' = c.assign t
  | .copy i => c' = c.copyOut i
  | .lock _ => c' = c
  | .connect i .. =>
      (∃ n t is, c.copies i = some (n, some t) ∧ c' = c.revise i (some (t.failovers is))) ∨
        c' = c.drop i
  | .persist i => c' = c.writeBack i
  | .finish i => c' = c.drop i
  | .world _ => c' = c

variable {net cd} in
private theorem target_step {s s' : TargetDriver Addr W} {e : TargetEvent Addr W}
    (h : s.step net cd e = some s') : TargetStep s.target s'.target e := by
  cases e with
  | setTarget t =>
      obtain rfl := Option.some.inj h
      exact rfl
  | copy i =>
      simp only [step] at h
      split at h
      · obtain rfl := Option.some.inj h
        exact rfl
      · cases h
  | lock i =>
      simp only [step] at h
      split at h
      · obtain rfl := Option.some.inj h
        exact rfl
      · cases h
  | connect i modelName nBlocks wireDtype =>
      simp only [step] at h
      split at h
      · rename_i n t _ hcopy
        obtain ⟨is, his⟩ := connectAttempts_failovers net cd modelName nBlocks wireDtype
          maxFailoverAttempts t s.world
        split at h
        · rename_i t' _ _ hconnect
          have ht' : t' = t.failovers is := by
            rw [connectWithFailover] at hconnect
            rw [← his, hconnect]
          obtain rfl := Option.some.inj h
          exact .inl ⟨n, t, is, hcopy, by rw [ht']⟩
        · obtain rfl := Option.some.inj h
          exact .inr rfl
      · cases h
  | persist i =>
      simp only [step] at h
      split at h
      · obtain rfl := Option.some.inj h
        exact rfl
      · cases h
  | finish i =>
      simp only [step] at h
      split at h
      · obtain rfl := Option.some.inj h
        exact rfl
      · cases h
  | world w =>
      obtain rfl := Option.some.inj h
      exact rfl

variable {net cd} in
/-- Every value and every copy is, up to failovers, the assigned one it comes from. -/
theorem sound_step {s s' : TargetDriver Addr W} {e : TargetEvent Addr W}
    (hs : s.target.Sound Swapped) (h : s.step net cd e = some s') : s'.target.Sound Swapped := by
  have ht := target_step h
  cases e with
  | setTarget t =>
      rw [show s'.target = _ from ht]
      exact (hs.assign Swapped.refl t).1
  | copy i =>
      rw [show s'.target = _ from ht]
      exact hs.copyOut i
  | lock i =>
      rw [show s'.target = _ from ht]
      exact hs
  | connect i _ _ _ =>
      rcases ht with ⟨n, t, is, hcopy, heq⟩ | heq
      · rw [heq]
        refine hs.revise fun m u hu a ha => ?_
        obtain ⟨-, rfl⟩ := Prod.mk.inj (Option.some.inj (hcopy.symm.trans hu))
        exact ha.failovers is
      · rw [heq]
        exact hs.drop i
  | persist i =>
      rw [show s'.target = _ from ht]
      exact hs.writeBack i
  | finish i =>
      rw [show s'.target = _ from ht]
      exact hs.drop i
  | world w =>
      rw [show s'.target = _ from ht]
      exact hs

variable {net cd} in
private theorem usersRoute_step {s s' : TargetDriver Addr W} {e : TargetEvent Addr W}
    (hs : s.target.Sound Swapped) (hroute : s.UsersRoute) (h : s.step net cd e = some s') :
    s'.UsersRoute ↔ s.Fresh e := by
  have ht := target_step h
  have hcurrent : s'.UsersRoute ↔ s'.target.Current :=
    ⟨fun hr => hr.1, fun hc => ⟨hc, (sound_step hs h).value.2 hc⟩⟩
  rw [hcurrent]
  cases e with
  | persist i =>
      rw [show s'.target = _ from ht]
      cases hcopy : s.target.copies i with
      | none =>
          have hsame : s.target.writeBack i = s.target := by
            simp [Cell.writeBack, hcopy]
          rw [hsame]
          exact iff_of_true hroute.1 fun n v hout => by simp [hcopy] at hout
      | some copy => exact Cell.current_writeBack hcopy
  | setTarget t =>
      rw [show s'.target = _ from ht]
      exact iff_of_true (hs.assign Swapped.refl t).2 trivial
  | connect i _ _ _ =>
      rcases ht with ⟨n, t, is, -, heq⟩ | heq
      · rw [heq]
        exact iff_of_true hroute.1 trivial
      · rw [heq]
        exact iff_of_true hroute.1 trivial
  | copy i =>
      rw [show s'.target = _ from ht]
      exact iff_of_true hroute.1 trivial
  | lock i =>
      rw [show s'.target = _ from ht]
      exact iff_of_true hroute.1 trivial
  | finish i =>
      rw [show s'.target = _ from ht]
      exact iff_of_true hroute.1 trivial
  | world w =>
      rw [show s'.target = _ from ht]
      exact iff_of_true hroute.1 trivial

theorem sound_new (w : W) : (new w : TargetDriver Addr W).target.Sound Swapped :=
  .new Swapped.refl none

/-- The target stays the user's route, whatever the order of steps, just when no turn writes back a
copy taken before the last call of `set_target`. -/
theorem usersRoute_held_iff (w : W) (es : List (TargetEvent Addr W)) (s : TargetDriver Addr W) :
    Held (step net cd) UsersRoute (new w) es s ↔ Run (step net cd) Fresh (new w) es s := by
  have key : ∀ {ok : TargetDriver Addr W → TargetEvent Addr W → Prop},
      Run (step net cd) ok (new w) es s →
        (Held (step net cd) UsersRoute (new w) es s ↔ Run (step net cd) Fresh (new w) es s) := by
    intro ok hrun
    exact held_iff_run hrun (sound_new w) ⟨rfl, Swapped.refl none⟩
      (fun x e y hx hy => sound_step hx hy) fun x e y hx hroute hy => usersRoute_step hx hroute hy
  constructor
  · intro h
    exact (key h.1).mp h
  · intro h
    exact (key h).mpr h

/-! A turn that outlives `/peers clear`. -/

private def key32 : PeerId := ⟨Vector.replicate 32 0⟩

private def onePeer : ChainTarget Nat := ⟨[0], [6], [[]]⟩

private def zeroSession : SessionId := ⟨Vector.replicate 32 0⟩

private def greeting : List Msg :=
  [.hello key32 1 [.q4km, .fp16], .sessionAck zeroSession (Vector.replicate 32 0)]

private def request : Msg :=
  .sessionInit zeroSession (Vector.replicate 32 0) "m" ⟨6, 12⟩ 2048

private def handshakeCodec : Codec where
  encode m := .ok (Cbor.msg (fun _ => []) m)
  decode b :=
    match (request :: greeting).find? fun m => Cbor.msg (fun _ => []) m = b with
    | some m => .ok m
    | none => .error "unsupported"

private def handshakeNet : Net Nat Unit Nat where
  dial _ w := (.done (), w)
  write _ _ w := (.done (), w)
  incoming _ w := [.units (encodeFrame handshakeCodec [] (greeting.getD w request)).2]
  leave _ _ w := w + 1
  session w := (zeroSession, w)

/-- `/peers` with one peer, a turn, and `/peers clear` while the turn connects: with the turn over,
its route is back. -/
theorem cleared_route_comes_back :
    ∃ s, Run (step handshakeNet handshakeCodec) (fun _ _ => True) (new 0)
        [.setTarget (some onePeer), .copy 1, .lock 1, .setTarget none, .connect 1 "m" 12 .fp16,
          .persist 1, .finish 1] s ∧
      s.turns 1 = none ∧ s.target.last = none ∧ s.target.value = some onePeer ∧
      ¬ s.UsersRoute := by
  obtain ⟨s, hexec, hs⟩ := Option.map_eq_some_iff.mp (show
    (exec (step handshakeNet handshakeCodec) (new 0)
        [.setTarget (some onePeer), .copy 1, .lock 1, .setTarget none, .connect 1 "m" 12 .fp16,
          .persist 1, .finish 1]).map (fun s => (s.turns 1, s.target.last, s.target.value)) =
      some (none, none, some onePeer) by decide +kernel)
  obtain ⟨hturn, hrest⟩ := Prod.mk.inj hs
  obtain ⟨hlast, hvalue⟩ := Prod.mk.inj hrest
  refine ⟨s, .of_exec _ hexec fun _ _ _ => trivial, hturn, hlast, hvalue, fun hroute => ?_⟩
  obtain ⟨is, his⟩ := hroute.2
  rw [hlast, hvalue] at his
  cases his

end TargetDriver

end IntelNav.App
