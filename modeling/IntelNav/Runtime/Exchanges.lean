import IntelNav.Runtime.Chain
import IntelNav.Transition.Run

/-! Which request a hop's reply belongs to, over a run of steps on one chain.

The driver numbers its requests and never looks at the number of a reply, so what it takes is
decided by what its link still has to deliver when the request is sent. -/

set_option autoImplicit false
set_option relaxedAutoImplicit false

namespace IntelNav.Runtime

open IntelNav.Core IntelNav.Ggml IntelNav.Stream IntelNav.Transition IntelNav.Wire

variable {Addr Conn W F : Type}

section Hop

variable (net : Net Addr Conn W) (cd : Codec)

def Link.send [F32 F] (dtype : Dtype) (phase : Phase) (keep : Option UInt32) (index : Nat)
    (link : Link Addr Conn) (cur : Hidden F) (w : W) :
    Except (ChainError Addr) Unit × Link Addr Conn × W :=
  let link := { link with seq := link.seq + 1 }
  match cur.shape with
  | [b, s, h] =>
      match encodeHiddenWith cur.data ⟨UInt32.ofNat b, UInt32.ofNat s, UInt32.ofNat h⟩ dtype with
      | .error e => (.error (.other (.hidden e)), link, w)
      | .ok p =>
          let req : Forward :=
            { sessionId := link.session, seq := link.seq, phase, dtype := p.dtype, shape := p.shape,
              payload := p.bytes, kvDelta := none, kvTruncateTo := keep }
          let (r, w) := link.writeWithTimeout net cd (.forwardHidden req) index w
          (r, link, w)
  | shape => (.error (.other (.rank shape)), link, w)

def Link.exchange [F32 F] (dtype : Dtype) (phase : Phase) (keep : Option UInt32) (index : Nat)
    (link : Link Addr Conn) (cur : Hidden F) (w : W) :
    Except (ChainError Addr) (Option Msg) × Link Addr Conn × W :=
  match link.send net cd dtype phase keep index cur w with
  | (.error e, link, w) => (.error e, link, w)
  | (.ok (), link, w) => link.readWithTimeout net cd index w

private theorem Link.hop_eq_exchange [F32 F] (dtype : Dtype) (phase : Phase) (keep : Option UInt32)
    (index : Nat) (link : Link Addr Conn) (cur : Hidden F) (w : W) :
    link.hop net cd dtype phase keep index cur w =
      match link.exchange net cd dtype phase keep index cur w with
      | (.error e, link, w) => (.error e, link, w)
      | (.ok reply, link, w) =>
          (acceptReply index link.addr link.session (cur.shape.getD 0 0) (cur.shape.getD 1 0) reply,
            link, w) := by
  obtain ⟨data, shape⟩ := cur
  match shape with
  | [] | [_] | [_, _] | _ :: _ :: _ :: _ :: _ => rfl
  | [b, s, h] =>
      simp only [Link.hop, Link.exchange, Link.send]
      cases encodeHiddenWith data ⟨UInt32.ofNat b, UInt32.ofNat s, UInt32.ofNat h⟩ dtype with
      | error e => rfl
      | ok p =>
          dsimp only
          generalize Link.writeWithTimeout net cd _ _ index w = written
          obtain ⟨r, w'⟩ := written
          cases r <;> rfl

private theorem hop_state [F32 F] (dtype : Dtype) (phase : Phase) (keep : Option UInt32)
    (index : Nat) (link : Link Addr Conn) (cur : Hidden F) (w : W) :
    (link.hop net cd dtype phase keep index cur w).2 =
      (link.exchange net cd dtype phase keep index cur w).2 := by
  rw [Link.hop_eq_exchange]
  obtain ⟨r, link', w'⟩ := link.exchange net cd dtype phase keep index cur w
  cases r <;> rfl

/-- The message read is a forward of the link's session: the hop takes it for its answer. -/
def Link.takes (link : Link Addr Conn) :
    Except (ChainError Addr) (Option Msg) → Option Forward
  | .ok (some (.forwardHidden f)) => if f.sessionId = link.session then some f else none
  | _ => none

private theorem takes_eq_some {link : Link Addr Conn} {r : Except (ChainError Addr) (Option Msg)}
    {f : Forward} :
    link.takes r = some f ↔ r = .ok (some (.forwardHidden f)) ∧ f.sessionId = link.session := by
  constructor
  · intro h
    unfold Link.takes at h
    split at h
    · obtain ⟨hsid, hf⟩ := Option.ite_none_right_eq_some.mp h
      obtain rfl := Option.some.inj hf
      exact ⟨rfl, hsid⟩
    · cases h
  · rintro ⟨rfl, hsid⟩
    exact if_pos hsid

/-- The bytes a link will still deliver: read and not decoded, or on their way. -/
def Link.unread (link : Link Addr Conn) (w : W) : List UInt8 :=
  link.rx ++ arrived (net.incoming link.sock w)

/-- An answer is waiting: a read of the link as it is brings one before the time limit. -/
def Link.Waiting (link : Link Addr Conn) (w : W) : Prop :=
  ∃ f, link.takes (link.readWithTimeout net cd 0 w).1 = some f

instance (link : Link Addr Conn) (w : W) : Decidable (link.Waiting net cd w) :=
  decidable_of_iff ((link.takes (link.readWithTimeout net cd 0 w).1).isSome = true)
    Option.isSome_iff_exists

/-- Connections in order, whose peers answer by number: what a request brings comes after all that
is on its way, in whole frames, and each forward of its session bears the number of the request.
There may be none, or several, and they may be late. -/
structure Answering : Prop where
  incoming_leave : ∀ c rest w, net.incoming c (net.leave c rest w) = rest
  incoming_leave_ne : ∀ c c' rest w, c' ≠ c →
    net.incoming c' (net.leave c rest w) = net.incoming c' w
  incoming_write : ∀ c (req : Forward) w, ∃ (later : List (Arrival UInt8)) (ms : List Msg),
    net.incoming c (net.write c (frameBytes cd (.forwardHidden req)) w).2 =
      net.incoming c w ++ later ∧
    (∀ m ∈ ms, cd.Fits m) ∧ arrived later = (ms.map (frameBytes cd)).flatten ∧
    ∀ f, Msg.forwardHidden f ∈ ms → f.sessionId = req.sessionId → f.seq = req.seq
  incoming_write_ne : ∀ c c' (req : Forward) w, c' ≠ c →
    net.incoming c' (net.write c (frameBytes cd (.forwardHidden req)) w).2 = net.incoming c' w

/-- All the link has to deliver are whole frames, its session's forwards among them numbered at most
as the last request. -/
def Link.Owed (link : Link Addr Conn) (w : W) : Prop :=
  ∃ ms : List Msg, (∀ m ∈ ms, cd.Fits m) ∧ link.unread net w = (ms.map (frameBytes cd)).flatten ∧
    ∀ f, Msg.forwardHidden f ∈ ms → f.sessionId = link.session → f.seq ≤ link.seq

variable {net cd}

theorem Link.Owed.congr {link : Link Addr Conn} {w w' : W} (h : link.Owed net cd w)
    (hin : net.incoming link.sock w' = net.incoming link.sock w) : link.Owed net cd w' := by
  obtain ⟨ms, hfits, hunread, hseq⟩ := h
  refine ⟨ms, hfits, ?_, hseq⟩
  rw [← hunread, Link.unread, Link.unread, hin]

variable (net cd) in
private theorem writeWithTimeout_world (link : Link Addr Conn) (msg : Msg) (index : Nat) (w : W) :
    (link.writeWithTimeout net cd msg index w).2 = w ∨
      (link.writeWithTimeout net cd msg index w).2 =
        (net.write link.sock (frameBytes cd msg) w).2 := by
  rw [Link.writeWithTimeout, frameBytes]
  cases encodeFrame cd [] msg with
  | mk r out =>
      cases r with
      | error e => exact .inl rfl
      | ok u =>
          refine .inr ?_
          dsimp only
          generalize net.write link.sock out w = written
          obtain ⟨t, w'⟩ := written
          cases t <;> rfl

private theorem readWithTimeout_item {link : Link Addr Conn} {index : Nat} {w : W} {m : Msg} :
    (link.readWithTimeout net cd index w).1 = .ok (some m) ↔
      (pull (decodeFrame cd) true link.rx (net.incoming link.sock w)).1 = .item m := by
  rw [Link.readWithTimeout, Wire.readWithTimeout]
  obtain ⟨out, rx, rest⟩ := pull (decodeFrame cd) true link.rx (net.incoming link.sock w)
  cases out <;> simp [readResult]

variable (net cd) in
/-- A request has been numbered and, it may be, sent: what it brings comes later, bearing its
number. -/
structure Link.Sent (link link' : Link Addr Conn) (w w' : W) : Prop where
  numbered : link' = { link with seq := link.seq + 1 }
  others : ∀ c, c ≠ link.sock → net.incoming c w' = net.incoming c w
  later : ∃ (later : List (Arrival UInt8)) (ms : List Msg),
    net.incoming link.sock w' = net.incoming link.sock w ++ later ∧ (∀ m ∈ ms, cd.Fits m) ∧
      arrived later = (ms.map (frameBytes cd)).flatten ∧
      ∀ f, Msg.forwardHidden f ∈ ms → f.sessionId = link.session → f.seq = link.seq + 1

private theorem send_sent [F32 F] (hnet : Answering net cd) (dtype : Dtype) (phase : Phase)
    (keep : Option UInt32) (index : Nat) (link : Link Addr Conn) (cur : Hidden F) (w : W) :
    link.Sent net cd (link.send net cd dtype phase keep index cur w).2.1 w
      (link.send net cd dtype phase keep index cur w).2.2 := by
  have hidle : link.Sent net cd { link with seq := link.seq + 1 } w w :=
    ⟨rfl, fun _ _ => rfl, [], [], by simp, by simp, rfl, by simp⟩
  obtain ⟨data, shape⟩ := cur
  match shape with
  | [] | [_] | [_, _] | _ :: _ :: _ :: _ :: _ => exact hidle
  | [b, s, h] =>
      simp only [Link.send]
      cases encodeHiddenWith data ⟨UInt32.ofNat b, UInt32.ofNat s, UInt32.ofNat h⟩ dtype with
      | error e => exact hidle
      | ok p =>
          dsimp only
          obtain ⟨req, hreq⟩ : ∃ req : Forward, req =
              { sessionId := link.session, seq := link.seq + 1, phase, dtype := p.dtype,
                shape := p.shape, payload := p.bytes, kvDelta := none, kvTruncateTo := keep } :=
            ⟨_, rfl⟩
          rw [← hreq]
          have hworld := writeWithTimeout_world net cd
            { link with seq := link.seq + 1 } (.forwardHidden req) index w
          rcases hworld with hworld | hworld
          · rw [hworld]
            exact hidle
          · rw [hworld]
            obtain ⟨later, ms, hin, hfits, hbytes, hnumber⟩ := hnet.incoming_write link.sock req w
            refine ⟨rfl, fun c hc => hnet.incoming_write_ne _ _ _ _ hc, later, ms, hin,
              hfits, hbytes,
              fun f hf hsid => ?_⟩
            have hseq := hnumber f hf (by rw [hsid, hreq])
            rw [hseq, hreq]

private theorem Link.Sent.owed {link link' : Link Addr Conn} {w w' : W}
    (hsent : link.Sent net cd link' w w') (h : link.Owed net cd w) : link'.Owed net cd w' := by
  obtain ⟨later, new, hin, hnew, hbytes, hnumber⟩ := hsent.later
  obtain ⟨old, hold, hunread, hprior⟩ := h
  obtain rfl := hsent.numbered
  refine ⟨old ++ new, ?_, ?_, ?_⟩
  · intro m hm
    rcases List.mem_append.mp hm with hm | hm
    · exact hold m hm
    · exact hnew m hm
  · rw [Link.unread, hin, arrived_append, hbytes, List.map_append, List.flatten_append, ← hunread,
      Link.unread, List.append_assoc]
  · intro f hf hsid
    rcases List.mem_append.mp hf with hf | hf
    · exact Nat.le_succ_of_le (hprior f hf hsid)
    · exact Nat.le_of_eq (hnumber f hf hsid)

private theorem readWithTimeout_owed (hcd : cd.RoundTrips) (hnet : Answering net cd)
    {link : Link Addr Conn} (index : Nat) {w : W} (howed : link.Owed net cd w) :
    (∃ rx, (link.readWithTimeout net cd index w).2.1 = { link with rx }) ∧
      (link.readWithTimeout net cd index w).2.1.Owed net cd
        (link.readWithTimeout net cd index w).2.2 ∧
      ∀ c, c ≠ link.sock →
        net.incoming c (link.readWithTimeout net cd index w).2.2 = net.incoming c w := by
  obtain ⟨ms, hfits, hunread, hseq⟩ := howed
  have htook := pull_took (decodeFrame_frontOnly cd) true link.rx (net.incoming link.sock w)
  obtain ⟨⟨out, rx, rest⟩, hpull⟩ :
      ∃ r, pull (decodeFrame cd) true link.rx (net.incoming link.sock w) = r := ⟨_, rfl⟩
  rw [hpull, show link.rx ++ arrived (net.incoming link.sock w) = _ from hunread] at htook
  have hworld : (link.readWithTimeout net cd index w).2 =
      ({ link with rx }, net.leave link.sock rest w) := by
    rw [Link.readWithTimeout, Wire.readWithTimeout, hpull]
    cases out <;> rfl
  rw [hworld]
  obtain ⟨taken, left, rfl, hleft⟩ : ∃ taken left, ms = taken ++ left ∧
      rx ++ arrived rest = (left.map (frameBytes cd)).flatten := by
    rcases took_items
      (frameBytes_framing hcd) hfits htook with ⟨m, left, rfl, -, hleft⟩ | ⟨-, hleft⟩
    · exact ⟨[m], left, rfl, hleft⟩
    · exact ⟨[], ms, rfl, hleft⟩
  refine ⟨⟨rx, rfl⟩, ⟨left, fun m hm => hfits m (List.mem_append_right taken hm), ?_,
    fun f hf => hseq f (List.mem_append_right taken hf)⟩, fun c hc =>
      hnet.incoming_leave_ne _ _ _ _ hc⟩
  rw [Link.unread, hnet.incoming_leave]
  exact hleft

/-- The link after the exchange of a hop: the same connection and session, the next number. -/
structure Link.Advanced (link link' : Link Addr Conn) : Prop where
  sock : link'.sock = link.sock
  session : link'.session = link.session
  seq : link'.seq = link.seq + 1

private theorem exchange_owed [F32 F] (hcd : cd.RoundTrips) (hnet : Answering net cd)
    (dtype : Dtype)
    (phase : Phase) (keep : Option UInt32) (index : Nat) {link : Link Addr Conn} (cur : Hidden F)
    {w : W} (howed : link.Owed net cd w) :
    link.Advanced (link.exchange net cd dtype phase keep index cur w).2.1 ∧
      (link.exchange net cd dtype phase keep index cur w).2.1.Owed net cd
        (link.exchange net cd dtype phase keep index cur w).2.2 ∧
      ∀ c, c ≠ link.sock →
        net.incoming c (link.exchange net cd dtype phase keep index cur w).2.2 =
          net.incoming c w := by
  have hsent := send_sent hnet dtype phase keep index link cur w
  rw [Link.exchange]
  obtain ⟨⟨r, link₁, w₁⟩, hres⟩ : ∃ x, link.send net cd dtype phase keep index cur w = x :=
    ⟨_, rfl⟩
  rw [hres] at hsent ⊢
  have howed₁ := hsent.owed howed
  obtain rfl : link₁ = _ := hsent.numbered
  cases r with
  | error e => exact ⟨⟨rfl, rfl, rfl⟩, howed₁, hsent.others⟩
  | ok u =>
      obtain ⟨⟨rx, hlink⟩, howed₂, hothers⟩ := readWithTimeout_owed hcd hnet index howed₁
      refine ⟨?_, howed₂, fun c hc => (hothers c hc).trans (hsent.others c hc)⟩
      show link.Advanced (Link.readWithTimeout net cd _ index w₁).2.1
      rw [hlink]
      exact ⟨rfl, rfl, rfl⟩

/-- What an exchange takes is the answer to its own request, unless one was waiting. -/
private theorem exchange_paired_iff [F32 F] (hcd : cd.RoundTrips) (hnet : Answering net cd)
    (dtype : Dtype)
    (phase : Phase) (keep : Option UInt32) (index : Nat) {link : Link Addr Conn} (cur : Hidden F)
    {w : W} (howed : link.Owed net cd w) :
    (∀ f, link.takes (link.exchange net cd dtype phase keep index cur w).1 = some f →
        f.seq = link.seq + 1) ↔
      ((link.send net cd dtype phase keep index cur w).1.isOk = true →
        ¬ link.Waiting net cd w) := by
  have hsent := send_sent hnet dtype phase keep index link cur w
  rw [Link.exchange]
  obtain ⟨⟨r, link₁, w₁⟩, hres⟩ : ∃ x, link.send net cd dtype phase keep index cur w = x :=
    ⟨_, rfl⟩
  rw [hres] at hsent ⊢
  obtain rfl : link₁ = _ := hsent.numbered
  obtain ⟨later, new, hin, hnew, hbytes, hnumber⟩ := hsent.later
  obtain ⟨old, hold, hunread, hprior⟩ := howed
  cases r with
  | error e => exact iff_of_true (fun f hf => by cases hf) fun h => by cases h
  | ok u =>
      dsimp only
      constructor
      · rintro hpaired - ⟨f, hf⟩
        obtain ⟨hread, hsid⟩ := takes_eq_some.mp hf
        have hpull := readWithTimeout_item.mp hread
        have htook := pull_took (decodeFrame_frontOnly cd) true link.rx (net.incoming link.sock w)
        rw [hpull, show link.rx ++ arrived (net.incoming link.sock w) = _ from hunread] at htook
        rcases took_items (frameBytes_framing hcd) hold htook with ⟨m, rest, rfl, hm, -⟩
          | ⟨hnone, -⟩
        · obtain rfl := Pulled.item.inj hm
          have hle := hprior f List.mem_cons_self hsid
          have hseq := hpaired f (takes_eq_some.mpr ⟨readWithTimeout_item.mpr (by
            rw [hin]
            exact pull_item_later _ _ hpull later), hsid⟩)
          omega
        · exact hnone _ rfl
      · intro hclear f hf
        obtain ⟨hread, hsid⟩ := takes_eq_some.mp hf
        have hpull := readWithTimeout_item.mp hread
        have hpull' : (pull (decodeFrame cd) true link.rx
            (net.incoming link.sock w ++ later)).1 = .item (.forwardHidden f) := by
          rw [← hin]
          exact hpull
        rcases pull_item_earlier (decodeFrame_frontOnly cd) true hpull' with hearlier | hwaits
        · exact absurd ⟨f, takes_eq_some.mpr ⟨readWithTimeout_item.mpr hearlier, hsid⟩⟩
            (hclear rfl)
        · -- nothing was left of earlier requests, so the answer is what this one brought
          rw [show link.rx ++ arrived (net.incoming link.sock w) = _ from hunread] at hwaits
          cases old with
          | cons m rest =>
              rw [List.map_cons, List.flatten_cons,
                (frameBytes_framing hcd).whole m _ (hold m List.mem_cons_self)] at hwaits
              cases hwaits
          | nil =>
              have htook := pull_took (decodeFrame_frontOnly cd) true link.rx
                (net.incoming link.sock w ++ later)
              rw [hpull', arrived_append, ← List.append_assoc,
                show link.rx ++ arrived (net.incoming link.sock w) = _ from hunread,
                  hbytes] at htook
              rcases took_items (frameBytes_framing hcd) hnew htook with
                ⟨m, rest, rfl, hm, -⟩ | ⟨hnone, -⟩
              · obtain rfl := Pulled.item.inj hm
                exact hnumber f List.mem_cons_self hsid
              · exact absurd rfl (hnone _)

end Hop

section Hops

variable (net : Net Addr Conn W) (cd : Codec)

/-- A hop that a step reaches: its link and the world before, whether its request went out, and the
forward it takes for the answer. -/
structure Exchange (Addr Conn W : Type) where
  link : Link Addr Conn
  world : W
  sent : Bool
  taken : Option Forward

def Exchange.Paired (x : Exchange Addr Conn W) : Prop :=
  ∀ f, x.taken = some f → f.seq = x.link.seq + 1

/-- The request does not go out on a link where an answer is waiting. -/
def Exchange.Clear (x : Exchange Addr Conn W) : Prop :=
  x.sent = true → ¬ x.link.Waiting net cd x.world

instance (x : Exchange Addr Conn W) : Decidable (x.Clear net cd) :=
  inferInstanceAs (Decidable (_ → _))

/-- The hops a step reaches, from `index` on. -/
def exchanges [F32 F] (dtype : Dtype) (phase : Phase) (keep : Option UInt32) :
    Nat → List (Link Addr Conn) → Hidden F → W → List (Exchange Addr Conn W)
  | _, [], _, _ => []
  | index, link :: links, cur, w =>
      { link, world := w
        sent := (link.send net cd dtype phase keep index cur w).1.isOk
        taken := link.takes (link.exchange net cd dtype phase keep index cur w).1 } ::
        match link.hop net cd dtype phase keep index cur w with
        | (.error _, _, _) => []
        | (.ok cur, _, w) => exchanges dtype phase keep (index + 1) links cur w

/-- The links of a chain on connections of their own, with nothing to deliver but answers to
requests sent. -/
structure LinksOwed (links : List (Link Addr Conn)) (w : W) : Prop where
  apart : (links.map Link.sock).Nodup
  owed : ∀ link ∈ links, link.Owed net cd w

variable {net cd}

theorem LinksOwed.tail {link : Link Addr Conn} {links : List (Link Addr Conn)} {w w' : W}
    (h : LinksOwed net cd (link :: links) w)
    (hothers : ∀ c, c ≠ link.sock → net.incoming c w' = net.incoming c w) :
    LinksOwed net cd links w' := by
  obtain ⟨hnot, hapart⟩ := List.nodup_cons.mp h.apart
  refine ⟨hapart, fun l hl => (h.owed l (List.mem_cons_of_mem link hl)).congr (hothers _ ?_)⟩
  intro hsock
  exact hnot (List.mem_map.mpr ⟨l, hl, hsock⟩)

/-- A step leaves the links owing answers to requests sent, and its hops pair just where no answer
was waiting. -/
private theorem hops_owed [F32 F] (hcd : cd.RoundTrips) (hnet : Answering net cd) (dtype : Dtype)
    (phase : Phase) (keep : Option UInt32) (index : Nat) (links : List (Link Addr Conn))
    (cur : Hidden F) {w : W} (howed : LinksOwed net cd links w) :
    (hops net cd dtype phase keep index links cur w).2.1.map Link.sock = links.map Link.sock ∧
      LinksOwed net cd (hops net cd dtype phase keep index links cur w).2.1
        (hops net cd dtype phase keep index links cur w).2.2 ∧
      (∀ c, c ∉ links.map Link.sock →
        net.incoming c (hops net cd dtype phase keep index links cur w).2.2 = net.incoming c w) ∧
      ∀ x ∈ exchanges net cd dtype phase keep index links cur w, x.Paired ↔ x.Clear net cd := by
  induction links generalizing index cur w with
  | nil => exact ⟨rfl, howed, fun _ _ => rfl, fun x hx => by cases hx⟩
  | cons link links ih =>
      have hlink := howed.owed link List.mem_cons_self
      have hfirst := exchange_paired_iff hcd hnet dtype phase keep index cur hlink
      obtain ⟨hadvanced, howed', hothers⟩ :=
        exchange_owed hcd hnet dtype phase keep index cur hlink
      obtain ⟨hnot, hapart⟩ := List.nodup_cons.mp howed.apart
      rw [← hop_state] at hadvanced howed' hothers
      rw [hops, exchanges]
      obtain ⟨⟨res, link', w'⟩, hhop⟩ : ∃ x, link.hop net cd dtype phase keep index cur w = x :=
        ⟨_, rfl⟩
      rw [hhop] at hadvanced howed' hothers ⊢
      have htail := howed.tail hothers
      cases res with
      | error e =>
          refine ⟨?_, ⟨?_, ?_⟩, ?_, ?_⟩
          · show link'.sock :: links.map Link.sock = link.sock :: links.map Link.sock
            rw [hadvanced.sock]
          · show (link'.sock :: links.map Link.sock).Nodup
            rw [hadvanced.sock]
            exact howed.apart
          · intro l hl
            rcases List.mem_cons.mp hl with rfl | hl
            · exact howed'
            · exact htail.owed l hl
          · intro c hc
            exact hothers c fun h => hc (h ▸ List.mem_cons_self)
          · intro x hx
            obtain rfl := List.mem_singleton.mp hx
            exact hfirst
      | ok next =>
          obtain ⟨hsocks, hlinks, hout, hpairs⟩ := ih (index + 1) next htail
          refine ⟨?_, ⟨?_, ?_⟩, ?_, ?_⟩
          · show link'.sock :: _ = link.sock :: links.map Link.sock
            rw [hadvanced.sock, hsocks]
          · show (link'.sock :: List.map Link.sock _).Nodup
            rw [hadvanced.sock, hsocks]
            exact howed.apart
          · intro l hl
            rcases List.mem_cons.mp hl with rfl | hl
            · exact howed'.congr (hout _ (hadvanced.sock ▸ hnot))
            · exact hlinks.owed l hl
          · intro c hc
            rw [List.map_cons, List.mem_cons, not_or] at hc
            show net.incoming c _ = _
            rw [hout c hc.2, hothers c hc.1]
          · intro x hx
            rcases List.mem_cons.mp hx with rfl | hx
            · exact hfirst
            · exact hpairs x hx

end Hops

/-- One call of `step_with_truncate`. -/
structure StepCall (F : Type) where
  front : Hidden F
  phase : Phase
  keep : Option UInt32

/-- A chain in use: its world, and the exchanges of its steps so far. -/
structure Driver (Addr Conn W : Type) where
  chain : Chain Addr Conn
  world : W
  log : List (Exchange Addr Conn W)

def Driver.Paired (d : Driver Addr Conn W) : Prop := ∀ x ∈ d.log, x.Paired

/-- For each hop reached so far, the number of its request and that of the answer it took. -/
def Driver.pairs (d : Driver Addr Conn W) : List (Nat × Option Nat) :=
  d.log.map fun x => (x.link.seq + 1, x.taken.map Forward.seq)

section Machine

variable [F32 F] (net : Net Addr Conn W) (cd : Codec)

def Driver.exchanges (d : Driver Addr Conn W) (c : StepCall F) : List (Exchange Addr Conn W) :=
  Runtime.exchanges net cd d.chain.cfg.wireDtype c.phase c.keep 0 d.chain.links c.front d.world

def Driver.step (d : Driver Addr Conn W) (c : StepCall F) : Option (Driver Addr Conn W) :=
  let (_, chain, world) := d.chain.stepWithTruncate net cd c.front c.phase c.keep d.world
  some { chain, world, log := d.log ++ d.exchanges net cd c }

/-- No request of the call goes out on a link where an answer is waiting. -/
def Driver.ClearAt (d : Driver Addr Conn W) (c : StepCall F) : Prop :=
  ∀ x ∈ d.exchanges net cd c, x.Clear net cd

instance (d : Driver Addr Conn W) (c : StepCall F) : Decidable (d.ClearAt net cd c) :=
  inferInstanceAs (Decidable (∀ x ∈ d.exchanges net cd c, x.Clear net cd))

variable {net cd}

/-- In any run of steps, those that fail included, the answers taken bear the numbers of their
requests just when no request went out on a link where an answer to an earlier one was waiting. -/
theorem paired_iff_clear (hcd : cd.RoundTrips) (hnet : Answering net cd)
    {d d' : Driver Addr Conn W} (howed : LinksOwed net cd d.chain.links d.world)
    (hlog : d.log = []) {calls : List (StepCall F)}
    (hrun : Run (Driver.step net cd) (fun _ _ => True) d calls d') :
    Held (Driver.step net cd) Driver.Paired d calls d' ↔
      Run (Driver.step net cd) (Driver.ClearAt net cd) d calls d' := by
  refine held_iff_run (I := fun d => LinksOwed net cd d.chain.links d.world) hrun howed ?_ ?_ ?_
  · intro x hx
    rw [hlog] at hx
    cases hx
  · intro x c y hx hy
    obtain rfl := Option.some.inj hy
    exact (hops_owed hcd hnet _ _ _ _ _ _ hx).2.1
  · intro x c y hx hpaired hy
    obtain rfl := Option.some.inj hy
    obtain ⟨-, -, -, hpair⟩ := hops_owed hcd hnet x.chain.cfg.wireDtype c.phase c.keep 0
      x.chain.links c.front hx
    constructor
    · intro h e he
      exact (hpair e he).mp (h e (List.mem_append_right _ he))
    · intro h e he
      rcases List.mem_append.mp he with he | he
      · exact hpaired e he
      · exact (hpair e he).mpr (h e he)

end Machine

end IntelNav.Runtime
