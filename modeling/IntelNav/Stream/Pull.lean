import Mathlib.Data.List.Basic

/-! Pulling framed items out of a stream that arrives in arbitrary pieces.

The buffer between two calls is the only state. Everything about fragmentation follows from one
invariant: buffer and pieces still to come, concatenated, are the part of the stream not yet
delivered. -/

set_option autoImplicit false
set_option relaxedAutoImplicit false

namespace IntelNav.Stream

variable {β μ ε : Type*}

/-- What one read of a source brings: some units, or nothing before the reader's deadline. -/
inductive Arrival (β : Type*)
  | units (piece : List β)
  | stall

inductive Pulled (μ ε : Type*)
  | item (m : μ)
  | closed
  | cut (buffered : Nat)
  | failed (e : ε)
  | late
  deriving DecidableEq

/-- A decoder for the front of a buffer: it fails, asks for more, or yields an item, and returns
the buffer it leaves. -/
abbrev FrontDecoder (β μ ε : Type*) := List β → Except ε (Option μ) × List β

/-- Decode from the buffer, and read one more piece as long as the decoder asks for more. A read
that brings no unit is the end of the stream; a stall ends the call only under a deadline. -/
def pull (dec : FrontDecoder β μ ε) (deadline : Bool) :
    List β → List (Arrival β) → Pulled μ ε × List β × List (Arrival β)
  | buf, source =>
    match dec buf with
    | (.error e, buf') => (.failed e, buf', source)
    | (.ok (some m), buf') => (.item m, buf', source)
    | (.ok none, buf') =>
      match source with
      | [] => (if buf'.isEmpty then .closed else .cut buf'.length, buf', [])
      | .stall :: rest => if deadline then (.late, buf', rest) else pull dec deadline buf' rest
      | .units piece :: rest =>
        if piece.isEmpty then
          (if buf'.isEmpty then .closed else .cut buf'.length, buf', .units piece :: rest)
        else pull dec deadline (buf' ++ piece) rest

/-- The outcomes of `n` calls in a row, with the buffer and source they leave. -/
def pulls (dec : FrontDecoder β μ ε) (deadline : Bool) :
    Nat → List β → List (Arrival β) → List (Pulled μ ε) × List β × List (Arrival β)
  | 0, buf, source => ([], buf, source)
  | n + 1, buf, source =>
    let (r, buf', source') := pull dec deadline buf source
    let (rs, final) := pulls dec deadline n buf' source'
    (r :: rs, final)

/-- `frame` is the image of an item on the wire: a whole frame decodes whatever follows it, a
proper part of one asks for more and is left alone. -/
structure Framing (dec : FrontDecoder β μ ε) (frame : μ → List β) (valid : μ → Prop) : Prop where
  nonempty : ∀ m, valid m → frame m ≠ []
  nothing : dec [] = (.ok none, [])
  whole : ∀ m rest, valid m → dec (frame m ++ rest) = (.ok (some m), rest)
  part : ∀ m p rest, valid m → frame m = p ++ rest → rest ≠ [] → dec p = (.ok none, p)

def pieces (chunks : List (List β)) : List (Arrival β) := chunks.map .units

private theorem pull_eq (dec : FrontDecoder β μ ε) (deadline : Bool) (buf : List β)
    (source : List (Arrival β)) :
    pull dec deadline buf source =
      match dec buf with
      | (.error e, buf') => (.failed e, buf', source)
      | (.ok (some m), buf') => (.item m, buf', source)
      | (.ok none, buf') =>
        match source with
        | [] => (if buf'.isEmpty then .closed else .cut buf'.length, buf', [])
        | .stall :: rest => if deadline then (.late, buf', rest) else pull dec deadline buf' rest
        | .units piece :: rest =>
          if piece.isEmpty then
            (if buf'.isEmpty then .closed else .cut buf'.length, buf', .units piece :: rest)
          else pull dec deadline (buf' ++ piece) rest := by
  rw [pull]

def arrived : List (Arrival β) → List β
  | [] => []
  | .units piece :: rest => piece ++ arrived rest
  | .stall :: rest => arrived rest

theorem arrived_append (source later : List (Arrival β)) :
    arrived (source ++ later) = arrived source ++ arrived later := by
  induction source with
  | nil => rfl
  | cons a rest ih =>
      cases a with
      | units piece =>
          show piece ++ arrived (rest ++ later) = piece ++ arrived rest ++ arrived later
          rw [ih, List.append_assoc]
      | stall => exact ih

/-- What a decoder says of a buffer it says of every longer one, and a buffer it waits on it leaves
alone. -/
structure FrontOnly (dec : FrontDecoder β μ ε) : Prop where
  waits : ∀ buf buf', dec buf = (.ok none, buf') → buf' = buf
  item : ∀ buf buf' m more, dec buf = (.ok (some m), buf') →
    dec (buf ++ more) = (.ok (some m), buf' ++ more)
  error : ∀ buf buf' e more, dec buf = (.error e, buf') →
    dec (buf ++ more) = (.error e, buf' ++ more)

/-- What a call with a given outcome has taken from the front of `all`, `left` being the rest: what
the decoder takes from `all` for an item or an error, and nothing otherwise. -/
def Took (dec : FrontDecoder β μ ε) (all : List β) : Pulled μ ε → List β → Prop
  | .item m, left => dec all = (.ok (some m), left)
  | .failed e, left => dec all = (.error e, left)
  | _, left => left = all

private theorem took_end (dec : FrontDecoder β μ ε) (all buf : List β) :
    Took dec all (if buf.isEmpty then .closed else .cut buf.length) all := by
  split_ifs <;> rfl

/-- A call takes from the buffer and the units to come, however these are cut. -/
theorem pull_took {dec : FrontDecoder β μ ε} (hdec : FrontOnly dec) (deadline : Bool)
    (buf : List β) (source : List (Arrival β)) :
    Took dec (buf ++ arrived source) (pull dec deadline buf source).1
      ((pull dec deadline buf source).2.1 ++ arrived (pull dec deadline buf source).2.2) := by
  induction source generalizing buf with
  | nil =>
      rw [pull_eq]
      cases hd : dec buf with
      | mk r left =>
          match r with
          | .error e => exact hdec.error _ _ _ _ hd
          | .ok (some m) => exact hdec.item _ _ _ _ hd
          | .ok none =>
              rw [hdec.waits _ _ hd]
              exact took_end dec _ buf
  | cons a rest ih =>
      rw [pull_eq]
      cases hd : dec buf with
      | mk r left =>
          match r with
          | .error e => exact hdec.error _ _ _ _ hd
          | .ok (some m) => exact hdec.item _ _ _ _ hd
          | .ok none =>
              rw [hdec.waits _ _ hd]
              cases a with
              | stall =>
                  cases deadline with
                  | true => rfl
                  | false => exact ih buf
              | units piece =>
                  by_cases hempty : piece.isEmpty = true
                  · simp only [if_pos hempty]
                    exact took_end dec _ buf
                  · have hrest := ih (buf ++ piece)
                    rw [List.append_assoc] at hrest
                    simp only [if_neg hempty]
                    exact hrest

theorem pull_item_later (dec : FrontDecoder β μ ε) (deadline : Bool) {buf : List β}
    {source : List (Arrival β)} {m : μ} (h : (pull dec deadline buf source).1 = .item m)
    (later : List (Arrival β)) : (pull dec deadline buf (source ++ later)).1 = .item m := by
  induction source generalizing buf with
  | nil =>
      rw [pull_eq] at h ⊢
      cases hd : dec buf with
      | mk r left =>
          rw [hd] at h
          match r with
          | .error e => cases h
          | .ok (some m') => exact h
          | .ok none =>
              dsimp only at h
              split_ifs at h
  | cons a rest ih =>
      rw [pull_eq] at h
      rw [List.cons_append, pull_eq]
      cases hd : dec buf with
      | mk r left =>
          rw [hd] at h
          match r with
          | .error e => cases h
          | .ok (some m') => exact h
          | .ok none =>
              cases a with
              | stall =>
                  cases deadline with
                  | true => cases h
                  | false => exact ih h
              | units piece =>
                  by_cases hempty : piece.isEmpty = true
                  · simp only [if_pos hempty] at h
                    split_ifs at h
                  · simp only [if_neg hempty] at h ⊢
                    exact ih h

/-- An item that a call gives was there without what arrives later, unless the decoder waits on all
that was. -/
theorem pull_item_earlier {dec : FrontDecoder β μ ε} (hdec : FrontOnly dec) (deadline : Bool)
    {buf : List β} {source later : List (Arrival β)} {m : μ}
    (h : (pull dec deadline buf (source ++ later)).1 = .item m) :
    (pull dec deadline buf source).1 = .item m ∨ (dec (buf ++ arrived source)).1 = .ok none := by
  induction source generalizing buf with
  | nil =>
      rw [List.nil_append, pull_eq] at h
      rw [pull_eq, arrived, List.append_nil]
      cases hd : dec buf with
      | mk r left =>
          rw [hd] at h
          match r with
          | .error e => cases h
          | .ok (some m') => exact .inl h
          | .ok none => exact .inr rfl
  | cons a rest ih =>
      rw [List.cons_append, pull_eq] at h
      rw [pull_eq]
      cases hd : dec buf with
      | mk r left =>
          rw [hd] at h
          match r with
          | .error e => cases h
          | .ok (some m') => exact .inl h
          | .ok none =>
              have hleft : left = buf := hdec.waits _ _ hd
              cases a with
              | stall =>
                  cases deadline with
                  | true => cases h
                  | false =>
                      rw [hleft] at h ⊢
                      exact ih h
              | units piece =>
                  by_cases hempty : piece.isEmpty = true
                  · simp only [if_pos hempty] at h
                    split_ifs at h
                  · simp only [if_neg hempty] at h ⊢
                    rw [hleft] at h ⊢
                    have hrest := ih h
                    rw [List.append_assoc] at hrest
                    exact hrest

section Fragmentation

variable {dec : FrontDecoder β μ ε} {frame : μ → List β} {valid : μ → Prop}

/-- One call delivers the next item however its frame is cut, and leaves the rest undelivered; what
arrives after the pieces is not looked at. -/
theorem pull_item_append (hf : Framing dec frame valid) (deadline : Bool) {m : μ} (hm : valid m)
    (chunks : List (List β)) (hne : ∀ c ∈ chunks, c ≠ []) (buf rest : List β)
    (hbuf : buf ++ chunks.flatten = frame m ++ rest) (later : List (Arrival β)) :
    ∃ buf' chunks', pull dec deadline buf (pieces chunks ++ later) =
        (.item m, buf', pieces chunks' ++ later) ∧
      (∀ c ∈ chunks', c ≠ []) ∧ buf' ++ chunks'.flatten = rest := by
  induction chunks generalizing buf with
  | nil =>
    have hb : buf = frame m ++ rest := by simpa using hbuf
    refine ⟨rest, [], ?_, by simp, by simp⟩
    rw [pull_eq, hb, hf.whole m rest hm]
  | cons c cs ih =>
    rcases List.append_eq_append_iff.mp hbuf with ⟨a, hfm, hcs⟩ | ⟨a, hb, hr⟩
    · -- the frame ends after the buffer: either exactly there, or in a later piece
      by_cases ha : a = []
      · subst ha
        refine ⟨[], c :: cs, ?_, hne, by simpa using hcs⟩
        have hb : buf = frame m ++ [] := by simpa using hfm.symm
        rw [pull_eq, hb, hf.whole m [] hm]
      · have hc : c ≠ [] := hne c List.mem_cons_self
        obtain ⟨buf', chunks', hp, hne', hrest⟩ :=
          ih (fun d hd => hne d (List.mem_cons_of_mem c hd)) (buf ++ c)
            (by simpa [List.append_assoc] using hbuf)
        refine ⟨buf', chunks', ?_, hne', hrest⟩
        rw [pull_eq, hf.part m buf a hm hfm ha]
        simpa [pieces, hc] using hp
    · refine ⟨a, c :: cs, ?_, hne, hr.symm⟩
      rw [pull_eq, hb, hf.whole m a hm]

private theorem pull_item (hf : Framing dec frame valid) (deadline : Bool) {m : μ} (hm : valid m)
    (chunks : List (List β)) (hne : ∀ c ∈ chunks, c ≠ []) (buf rest : List β)
    (hbuf : buf ++ chunks.flatten = frame m ++ rest) :
    ∃ buf' chunks', pull dec deadline buf (pieces chunks) = (.item m, buf', pieces chunks') ∧
      (∀ c ∈ chunks', c ≠ []) ∧ buf' ++ chunks'.flatten = rest := by
  simpa using pull_item_append hf deadline hm chunks hne buf rest hbuf []

theorem took_items (hf : Framing dec frame valid) {ms : List μ} (hms : ∀ m ∈ ms, valid m)
    {out : Pulled μ ε} {left : List β} (h : Took dec (ms.map frame).flatten out left) :
    (∃ m rest, ms = m :: rest ∧ out = .item m ∧ left = (rest.map frame).flatten) ∨
      (∀ m, out ≠ .item m) ∧ left = (ms.map frame).flatten := by
  have hfront : dec (ms.map frame).flatten = (.ok none, []) ∧ ms = [] ∨
      ∃ m rest, ms = m :: rest ∧
        dec (ms.map frame).flatten = (.ok (some m), (rest.map frame).flatten) := by
    cases ms with
    | nil => exact .inl ⟨hf.nothing, rfl⟩
    | cons m rest =>
        refine .inr ⟨m, rest, rfl, ?_⟩
        rw [List.map_cons, List.flatten_cons]
        exact hf.whole m _ (hms m List.mem_cons_self)
  cases out with
  | item m =>
      have htook : dec (ms.map frame).flatten = (.ok (some m), left) := h
      rcases hfront with ⟨hnone, -⟩ | ⟨m', rest, hcons, hsome⟩
      · rw [hnone] at htook
        cases (Prod.mk.inj htook).1
      · rw [hsome] at htook
        obtain ⟨hm, rfl⟩ := Prod.mk.inj htook
        obtain rfl := Option.some.inj (Except.ok.inj hm)
        exact .inl ⟨m', rest, hcons, rfl, rfl⟩
  | failed e =>
      have htook : dec (ms.map frame).flatten = (.error e, left) := h
      rcases hfront with ⟨hnone, -⟩ | ⟨m', rest, -, hsome⟩
      · rw [hnone] at htook
        cases (Prod.mk.inj htook).1
      · rw [hsome] at htook
        cases (Prod.mk.inj htook).1
  | closed => exact .inr ⟨by simp, h⟩
  | cut n => exact .inr ⟨by simp, h⟩
  | late => exact .inr ⟨by simp, h⟩

private theorem pull_cut (hf : Framing dec frame valid) (deadline : Bool) {m : μ} (hm : valid m)
    (chunks : List (List β)) (hne : ∀ c ∈ chunks, c ≠ []) (buf p rest : List β) (hp : p ≠ [])
    (hframe : frame m = p ++ rest) (hrest : rest ≠ []) (hbuf : buf ++ chunks.flatten = p) :
    pull dec deadline buf (pieces chunks) = (.cut p.length, p, []) := by
  induction chunks generalizing buf with
  | nil =>
    have hb : buf = p := by simpa using hbuf
    rw [pull_eq, hb, hf.part m p rest hm hframe hrest]
    simp [pieces, hp]
  | cons c cs ih =>
    have hc : c ≠ [] := hne c List.mem_cons_self
    have hpart : dec buf = (.ok none, buf) := by
      refine hf.part m buf ((c :: cs).flatten ++ rest) hm ?_ (by simp [hrest])
      rw [hframe, ← hbuf, List.append_assoc]
    have hcall := ih (fun d hd => hne d (List.mem_cons_of_mem c hd)) (buf ++ c)
      (by simpa [List.append_assoc] using hbuf)
    rw [pull_eq, hpart]
    simpa [pieces, hc] using hcall

theorem pull_closed (hf : Framing dec frame valid) (deadline : Bool) :
    pull dec deadline [] [] = (.closed, [], []) := by
  rw [pull_eq, hf.nothing]
  rfl

private theorem pulls_closed (hf : Framing dec frame valid) (deadline : Bool) (n : Nat) :
    pulls dec deadline n [] [] = (List.replicate n .closed, [], []) := by
  induction n with
  | zero => rfl
  | succ n ih => simp [pulls, pull_closed hf, ih, List.replicate_succ]

private theorem pulls_cut (hf : Framing dec frame valid) (deadline : Bool) {m : μ} (hm : valid m)
    {p rest : List β} (hp : p ≠ []) (hframe : frame m = p ++ rest) (hrest : rest ≠ []) (n : Nat) :
    pulls dec deadline n p [] = (List.replicate n (.cut p.length), p, []) := by
  have hone := pull_cut hf deadline hm [] (by simp) p p rest hp hframe hrest (by simp)
  induction n with
  | zero => rfl
  | succ n ih =>
    have hone' : pull dec deadline p [] = (.cut p.length, p, []) := hone
    simp [pulls, hone', ih, List.replicate_succ]

private theorem pulls_items (hf : Framing dec frame valid) (deadline : Bool) (ms : List μ)
    (hms : ∀ m ∈ ms, valid m) (n : Nat) (chunks : List (List β)) (hne : ∀ c ∈ chunks, c ≠ [])
    (buf rest : List β) (hbuf : buf ++ chunks.flatten = (ms.map frame).flatten ++ rest) :
    ∃ buf' chunks', (∀ c ∈ chunks', c ≠ []) ∧ buf' ++ chunks'.flatten = rest ∧
      pulls dec deadline (ms.length + n) buf (pieces chunks) =
        ((ms.map .item) ++ (pulls dec deadline n buf' (pieces chunks')).1,
          (pulls dec deadline n buf' (pieces chunks')).2) := by
  induction ms generalizing buf chunks with
  | nil => exact ⟨buf, chunks, hne, by simpa using hbuf, by simp⟩
  | cons m ms ih =>
    obtain ⟨buf₁, chunks₁, hpull, hne₁, hbuf₁⟩ :=
      pull_item hf deadline (hms m List.mem_cons_self) chunks hne buf
        ((ms.map frame).flatten ++ rest) (by simpa [List.append_assoc] using hbuf)
    obtain ⟨buf', chunks', hne', hrest, hpulls⟩ :=
      ih (fun x hx => hms x (List.mem_cons_of_mem m hx)) chunks₁ hne₁ buf₁ hbuf₁
    refine ⟨buf', chunks', hne', hrest, ?_⟩
    have hn : (m :: ms).length + n = (ms.length + n) + 1 := by simp only [List.length_cons]; omega
    rw [hn]
    simp only [pulls, hpull, hpulls, List.map_cons, List.cons_append]

theorem pulls_complete (hf : Framing dec frame valid) (deadline : Bool) (ms : List μ)
    (hms : ∀ m ∈ ms, valid m) (n : Nat) (chunks : List (List β)) (hne : ∀ c ∈ chunks, c ≠ [])
    (hstream : chunks.flatten = (ms.map frame).flatten) :
    pulls dec deadline (ms.length + (n + 1)) [] (pieces chunks) =
      (ms.map .item ++ List.replicate (n + 1) .closed, [], []) := by
  obtain ⟨buf', chunks', hne', hrest, hpulls⟩ :=
    pulls_items hf deadline ms hms (n + 1) chunks hne [] [] (by simpa using hstream)
  obtain ⟨rfl, hflat⟩ := List.append_eq_nil_iff.mp hrest
  have hnil : chunks' = [] := by
    cases chunks' with
    | nil => rfl
    | cons c cs =>
      have hc : c = [] := by simpa using (List.flatten_eq_nil_iff.mp hflat) c List.mem_cons_self
      exact absurd hc (hne' c List.mem_cons_self)
  subst hnil
  have hclosed : pulls dec deadline (n + 1) [] [] = (List.replicate (n + 1) .closed, [], []) :=
    pulls_closed hf deadline (n + 1)
  rw [hpulls]
  simp [pieces, hclosed]

theorem pulls_truncated (hf : Framing dec frame valid) (deadline : Bool) (ms : List μ)
    (hms : ∀ m ∈ ms, valid m) {m : μ} (hm : valid m) {p rest : List β} (hp : p ≠ [])
    (hframe : frame m = p ++ rest) (hrest : rest ≠ []) (n : Nat) (chunks : List (List β))
    (hne : ∀ c ∈ chunks, c ≠ []) (hstream : chunks.flatten = (ms.map frame).flatten ++ p) :
    pulls dec deadline (ms.length + n) [] (pieces chunks) =
      (ms.map .item ++ List.replicate n (.cut p.length),
        (pulls dec deadline (ms.length + n) [] (pieces chunks)).2) := by
  obtain ⟨buf', chunks', hne', hleft, hpulls⟩ :=
    pulls_items hf deadline ms hms n chunks hne [] p (by simpa using hstream)
  have htail : (pulls dec deadline n buf' (pieces chunks')).1 = List.replicate n
    (.cut p.length) := by
    cases n with
    | zero => rfl
    | succ n =>
      have hcut := pull_cut hf deadline hm chunks' hne' buf' p rest hp hframe hrest hleft
      have hmore := pulls_cut hf deadline hm hp hframe hrest n
      simp [pulls, hcut, hmore, List.replicate_succ]
  rw [hpulls, htail]

end Fragmentation

end IntelNav.Stream
