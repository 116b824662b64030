import IntelNav.Runtime.Fresh
import IntelNav.Runtime.Nucleus
import IntelNav.Runtime.Prompt
import IntelNav.Transition.Run
import IntelNav.Tui.App

/-! The driver of the models on this machine (`crates/app/src/local.rs`): one loaded model behind a
lock, and the turns that take it one after the other.

Loading a file is a parameter; the files stay as they are while the driver lives. -/

set_option autoImplicit false
set_option relaxedAutoImplicit false

namespace IntelNav.App

open IntelNav.Core IntelNav.Ggml IntelNav.Runtime IntelNav.Transition
open IntelNav.Tui (Delta)

variable {R D F K V : Type} [F32 F] [F64 D F] [SamplerLib R F]

structure LocalModel where
  path : String
  tokenizer : Option String
  deriving DecidableEq

/-- What loads from the files; the error of a load says no more than which file it was. -/
structure ModelDir (F K : Type) where
  loadModel : String → Option (Pipelined F K × K)
  loadTok : String → Option Tok

structure Loaded (F K : Type) where
  path : String
  handle : Pipelined F K
  kv : K
  tok : Tok

structure Job (D F : Type) where
  model : LocalModel
  messages : List ChatTurn
  cfg : SamplingCfg D F

def ModelDir.load (dir : ModelDir F K) (model : LocalModel) : Except String (Loaded F K) :=
  match model.tokenizer with
  | none => .error s!"no tokenizer.json next to {model.path}"
  | some tokPath =>
      match dir.loadModel model.path with
      | none => .error s!"loading {model.path}"
      | some (handle, kv) =>
          match dir.loadTok tokPath with
          | none => .error s!"loading tokenizer {tokPath}"
          | some tok => .ok { path := model.path, handle, kv, tok }

/-- `ensure`: what is loaded stays if it comes from the same file. -/
def ensure (dir : ModelDir F K) (slot : Option (Loaded F K)) (model : LocalModel) :
    Except String (Loaded F K) :=
  match slot with
  | some l => if l.path = model.path then .ok l else dir.load model
  | none => dir.load model

/-- The text of an error of `generate`; none for a panic. -/
def errorText : TurnError Empty → Option String
  | .encode msg => some s!"encode: {msg}"
  | .emptyPrompt => some "prompt tokenized to zero tokens"
  | .model msg => some msg
  | .chain _ => some ""  -- there is no chain
  | .emptyLogits => some "sample: empty logits"
  | .decode (.decode msg) => some s!"decode: {msg}"
  | .decode .panic => none
  | .callback msg => some msg

def deltasOf (r : TurnResult Empty) : List Delta × Bool :=
  let tokens := r.calls.map Delta.token
  match r.count with
  | .ok _ => (tokens ++ [.done], false)
  | .error e =>
      match errorText e with
      | some msg => (tokens ++ [.error msg], false)
      | none => (tokens, true)

variable (R) in
/-- The second half of `run_blocking`, on what is loaded. -/
def Loaded.answer (l : Loaded F K) (job : Job D F) : List Delta × Bool :=
  deltasOf ((generate (R := R) l.handle l.tok job.cfg (fun _ => .ok ())
    (buildChatPrompt job.messages) l.kv).get (generate_isSome _ _ _ _ _ _))

/-- A turn waits for the lock, holds no lock between `ensure` and `generate`, and is over when it
has sent all its deltas. -/
inductive JobStage
  | started
  | ensured
  | sent (deltas : List Delta)

/-- The driver, and the turns that were started with it. -/
structure LocalDriver (D F K : Type) where
  inner : Option (Loaded F K)
  poisoned : Bool
  jobs : List (Job D F × JobStage)

inductive LocalEvent (D F K : Type)
  | stream (job : Job D F)
  | ensure (i : Nat)
  | generate (i : Nat) (kv : K)  -- and the context that is left

namespace LocalDriver

def new : LocalDriver D F K := ⟨none, false, []⟩

def asked (s : LocalDriver D F K) : List (Job D F) := s.jobs.map Prod.fst

def move (s : LocalDriver D F K) (i : Nat) (job : Job D F) (st : JobStage) : LocalDriver D F K :=
  { s with jobs := s.jobs.set i (job, st) }

variable (R) in
def step (dir : ModelDir F K) (s : LocalDriver D F K) :
    LocalEvent D F K → Option (LocalDriver D F K)
  | .stream job => some { s with jobs := s.jobs ++ [(job, .started)] }
  | .ensure i =>
      match s.jobs[i]? with
      | some (job, .started) =>
          -- taking a poisoned lock panics
          if s.poisoned then some (s.move i job (.sent []))
          else
            match App.ensure dir s.inner job.model with
            | .error msg => some (s.move i job (.sent [.error msg]))
            | .ok l => some ({ s with inner := some l : LocalDriver D F K }.move i job .ensured)
      | _ => none
  | .generate i kv =>
      match s.jobs[i]? with
      | some (job, .ensured) =>
          if s.poisoned then some (s.move i job (.sent []))
          else
            match s.inner with
            | none => some (s.move i job (.sent [.error "model unloaded mid-flight"]))
            | some l =>
                let (deltas, panicked) := l.answer R job
                some ({ s with
                  inner := some { l with kv }
                  poisoned := panicked : LocalDriver D F K }.move i job (.sent deltas))
      | _ => none

end LocalDriver

variable (R) in
def alone (dir : ModelDir F K) (job : Job D F) : List Delta :=
  match dir.load job.model with
  | .error msg => [.error msg]
  | .ok l => (l.answer R job).1

section Alone

variable {dir : ModelDir F K} {view : K → V} {l : Loaded F K} {model : LocalModel} {job : Job D F}

omit [F32 F] in
private theorem ModelDir.load_path (h : dir.load model = .ok l) : l.path = model.path := by
  unfold ModelDir.load at h
  split at h
  · cases h
  split at h
  · cases h
  split at h
  · cases h
  rw [← Except.ok.inj h]

omit [F32 F] in
private theorem ModelDir.load_handle (h : dir.load model = .ok l) :
    ∃ k, dir.loadModel model.path = some (l.handle, k) := by
  unfold ModelDir.load at h
  split at h
  · cases h
  split at h
  · cases h
  rename_i handle kv hload
  split at h
  · cases h
  obtain rfl := Except.ok.inj h
  exact ⟨kv, hload⟩

omit [F32 F] in
private theorem ensure_error {slot : Option (Loaded F K)} {msg : String}
    (h : ensure dir slot model = .error msg) : dir.load model = .error msg := by
  unfold ensure at h
  split at h
  · split at h
    · cases h
    · exact h
  · exact h

omit [F32 F] in
private theorem ensure_ok {slot : Option (Loaded F K)} (h : ensure dir slot model = .ok l) :
    l.path = model.path ∧ (slot = some l ∨ dir.load model = .ok l) := by
  unfold ensure at h
  split at h
  · split at h
    · rename_i hpath
      obtain rfl := Except.ok.inj h
      exact ⟨hpath, .inl rfl⟩
    · exact ⟨ModelDir.load_path h, .inr h⟩
  · exact ⟨ModelDir.load_path h, .inr h⟩

/-- An answer does not depend on what the context held. -/
private theorem Loaded.answer_fresh (hm : Forgets l.handle view) (k : K) (job : Job D F) :
    ({ l with kv := k } : Loaded F K).answer R job = l.answer R job := by
  unfold Loaded.answer
  simp only [generate_fresh (R := R) hm l.tok job.cfg (fun _ => .ok ())
    (buildChatPrompt job.messages) k l.kv]

namespace LocalDriver

variable {s s₁ s' : LocalDriver D F K} {e : LocalEvent D F K} {i j : Nat} {st st' : JobStage}

/-- While turn `i` is between its two locks no other turn loads from another file. -/
def Undisturbed (i : Nat) (s : LocalDriver D F K) : LocalEvent D F K → Prop
  | .stream _ => True
  | .ensure j => ∀ job job', s.jobs[i]? = some (job, .ensured) →
      s.jobs[j]? = some (job', .started) → job'.model.path = job.model.path
  | .generate _ _ => True

def OneTokenizer (asked : List (Job D F)) (model : LocalModel) : Prop :=
  ∀ job ∈ asked, job.model.path = model.path → job.model.tokenizer = model.tokenizer

/-- What is loaded is what some turn asked for, but for the context. -/
def FromFile (dir : ModelDir F K) (asked : List (Job D F)) (l : Loaded F K) : Prop :=
  ∃ job ∈ asked, ∃ l₀ : Loaded F K, dir.load job.model = .ok l₀ ∧ l = { l₀ with kv := l.kv }

omit [F32 F] [F64 D F] in
theorem FromFile.mono {asked asked' : List (Job D F)} (h : FromFile dir asked l)
    (hsub : asked ⊆ asked') : FromFile dir asked' l := by
  obtain ⟨job, hjob, hload⟩ := h
  exact ⟨job, hsub hjob, hload⟩

variable (R) in
/-- What holds of turn `i` at a stage. -/
def Told (dir : ModelDir F K) (s : LocalDriver D F K) (job : Job D F) : JobStage → Prop
  | .started => True
  | .ensured => ∃ l, s.inner = some l ∧ l.path = job.model.path
  | .sent ds => OneTokenizer s.asked job.model → ds = alone R dir job ∨ s.poisoned = true ∧ ds = []

variable (R) in
def Broken (dir : ModelDir F K) (jobs : List (Job D F × JobStage)) : Prop :=
  ∃ (j : Nat) (job : Job D F) (ds : List Delta) (l : Loaded F K),
    jobs[j]? = some (job, JobStage.sent ds) ∧ FromFile dir (jobs.map Prod.fst) l ∧
      l.answer R job = (ds, true)

variable (R) in
structure Sound (dir : ModelDir F K) (i : Nat) (s : LocalDriver D F K) : Prop where
  loaded : ∀ l, s.inner = some l → FromFile dir s.asked l
  broken : s.poisoned = true → Broken R dir s.jobs
  told : ∀ job st, s.jobs[i]? = some (job, st) → Told R dir s job st

omit [F32 F] [F64 D F] in
private theorem move_cases {k : Nat} {job' : Job D F}
    (h : (s.move j job st).jobs[k]? = some (job', st')) :
    k = j ∧ job' = job ∧ st' = st ∨ k ≠ j ∧ s.jobs[k]? = some (job', st') := by
  change (s.jobs.set j (job, st))[k]? = _ at h
  rw [List.getElem?_set] at h
  split at h
  · rename_i hk
    split at h
    · obtain ⟨rfl, rfl⟩ := Prod.mk.inj (Option.some.inj h)
      exact .inl ⟨hk.symm, rfl, rfl⟩
    · cases h
  · rename_i hk
    exact .inr ⟨Ne.symm hk, h⟩

omit [F32 F] [F64 D F] in
private theorem move_get (hj : s.jobs[j]? = some (job, st)) :
    (s.move j job st').jobs[j]? = some (job, st') := by
  obtain ⟨hlt, -⟩ := List.getElem?_eq_some_iff.mp hj
  exact List.getElem?_set_self hlt

omit [F32 F] [F64 D F] in
private theorem move_get_ne {k : Nat} (hk : k ≠ j) : (s.move j job st).jobs[k]? = s.jobs[k]? :=
  List.getElem?_set_ne (Ne.symm hk)

omit [F32 F] [F64 D F] in
private theorem asked_move (hj : s.jobs[j]? = some (job, st)) (hjobs : s₁.jobs = s.jobs) :
    (s₁.move j job st').asked = s.asked := by
  obtain ⟨hlt, hget⟩ := List.getElem?_eq_some_iff.mp hj
  have hlt' : j < (s.jobs.map Prod.fst).length := by
    rw [List.length_map]
    exact hlt
  have hsame : job = (s.jobs.map Prod.fst)[j] := by
    rw [List.getElem_map, hget]
  rw [asked, move, hjobs, List.map_set, asked]
  conv_lhs => rw [hsame]
  exact List.set_getElem_self _

omit [F32 F] [F64 D F] in
theorem FromFile.move (h : FromFile dir s.asked l) (hj : s.jobs[j]? = some (job, st))
    (hjobs : s₁.jobs = s.jobs) : FromFile dir ((s₁.move j job st').jobs.map Prod.fst) l := by
  change FromFile dir (s₁.move j job st').asked l
  rw [asked_move hj hjobs]
  exact h

theorem Broken.move (h : Broken R dir s.jobs) (hj : s.jobs[j]? = some (job, st))
    (hgoing : ∀ ds, st ≠ .sent ds) (hjobs : s₁.jobs = s.jobs) :
    Broken R dir (s₁.move j job st').jobs := by
  obtain ⟨k, job', ds, l, hk, hl, hanswer⟩ := h
  have hne : k ≠ j := by
    rintro rfl
    rw [hj] at hk
    exact hgoing ds (Prod.mk.inj (Option.some.inj hk)).2
  exact ⟨k, job', ds, l, by rw [move_get_ne hne, hjobs, hk], hl.move hj hjobs, hanswer⟩

theorem Sound.move (h : Sound R dir i s) (hj : s.jobs[j]? = some (job, st))
    (hjobs : s₁.jobs = s.jobs) (hloaded : ∀ l, s₁.inner = some l → FromFile dir s.asked l)
    (hbroken : s₁.poisoned = true → Broken R dir (s₁.move j job st').jobs)
    (hothers : ∀ job st, i ≠ j → s.jobs[i]? = some (job, st) → Told R dir s job st →
      Told R dir s₁ job st)
    (htold : i = j → Told R dir s₁ job st') : Sound R dir i (s₁.move j job st') where
  loaded l hl := by
    rw [asked_move hj hjobs]
    exact hloaded l hl
  broken := hbroken
  told := by
    intro job' st₁ hget
    have hasked : (s₁.move j job st').asked = s₁.asked := asked_move (hjobs ▸ hj) rfl
    have hsame : Told R dir s₁ job' st₁ → Told R dir (s₁.move j job st') job' st₁ := by
      intro htold
      cases st₁ with
      | started => trivial
      | ensured => exact htold
      | sent ds => exact fun hone => htold (hasked ▸ hone)
    apply hsame
    rcases move_cases hget with ⟨rfl, rfl, rfl⟩ | ⟨hne, hget⟩
    · exact htold rfl
    · rw [hjobs] at hget
      exact hothers job' st₁ hne hget (h.told job' st₁ hget)

theorem sound_new (dir : ModelDir F K) (i : Nat) : Sound R dir i (new : LocalDriver D F K) where
  loaded := nofun
  broken := nofun
  told := nofun

private theorem sound_stream (h : Sound R dir i s) :
    Sound R dir i { s with jobs := s.jobs ++ [(job, .started)] } := by
  have hsub : s.asked ⊆ (s.jobs ++ [(job, JobStage.started)]).map Prod.fst := by
    rw [List.map_append]
    exact List.subset_append_left _ _
  refine ⟨fun l hl => (h.loaded l hl).mono hsub, ?_, ?_⟩
  · intro hpoisoned
    obtain ⟨k, job', ds, l, hk, hl, hanswer⟩ := h.broken hpoisoned
    refine ⟨k, job', ds, l, ?_, hl.mono hsub, hanswer⟩
    rw [List.getElem?_append_left (List.getElem?_eq_some_iff.mp hk).1]
    exact hk
  · intro job' st' hget
    rw [List.getElem?_append] at hget
    split at hget
    · have htold := h.told job' st' hget
      cases st' with
      | started => trivial
      | ensured => exact htold
      | sent ds => exact fun hone => htold fun job'' hjob'' => hone job'' (hsub hjob'')
    · obtain rfl : st' = .started := by
        cases hn : i - s.jobs.length with
        | zero =>
            rw [hn] at hget
            exact (Prod.mk.inj (Option.some.inj hget)).2.symm
        | succ n =>
            rw [hn] at hget
            cases hget
      trivial

omit [F32 F] [F64 D F] in
private theorem mem_asked (hj : s.jobs[j]? = some (job, st)) : job ∈ s.asked :=
  List.mem_map.mpr ⟨(job, st), List.mem_of_getElem? hj, rfl⟩

private theorem sound_ensure (h : Sound R dir i s) (hj : s.jobs[j]? = some (job, .started))
    (hquiet : ∀ job', s.jobs[i]? = some (job', .ensured) → job.model.path = job'.model.path)
    (hs : s.step R dir (.ensure j) = some s') : Sound R dir i s' := by
  simp only [step, hj] at hs
  by_cases hpoisoned : s.poisoned = true
  · rw [if_pos hpoisoned] at hs
    obtain rfl := Option.some.inj hs
    exact h.move hj rfl h.loaded (fun _ => (h.broken hpoisoned).move hj nofun rfl)
      (fun _ _ _ _ htold => htold) fun _ _ => .inr ⟨hpoisoned, rfl⟩
  rw [if_neg hpoisoned] at hs
  cases hensure : App.ensure dir s.inner job.model with
  | error msg =>
      rw [hensure] at hs
      obtain rfl := Option.some.inj hs
      refine h.move hj rfl h.loaded (fun hbroken => absurd hbroken hpoisoned)
        (fun _ _ _ _ htold => htold) fun _ _ => .inl ?_
      rw [alone, ensure_error hensure]
  | ok l =>
      rw [hensure] at hs
      obtain rfl := Option.some.inj hs
      obtain ⟨hpath, hsource⟩ := ensure_ok hensure
      refine h.move hj rfl ?_
        (fun hbroken => absurd hbroken hpoisoned) ?_ fun _ => ⟨l, rfl, hpath⟩
      · intro l' hl'
        obtain rfl := Option.some.inj hl'
        rcases hsource with hsame | hload
        · exact h.loaded l hsame
        · exact ⟨job, mem_asked hj, l, hload, rfl⟩
      · intro job' st hne hi htold
        cases st with
        | started => trivial
        | ensured => exact ⟨l, rfl, hpath.trans (hquiet job' hi)⟩
        | sent ds => exact htold

private theorem answer_alone (hdir : ∀ path m k, dir.loadModel path = some (m, k) → Forgets m view)
    {asked : List (Job D F)} (hone : OneTokenizer asked job.model) (hfile : FromFile dir asked l)
    (hpath : l.path = job.model.path) : alone R dir job = (l.answer R job).1 := by
  obtain ⟨job', hjob', l₀, hload, hsame⟩ := hfile
  have hname : job'.model.path = job.model.path := by
    rw [← hpath, hsame, ← ModelDir.load_path hload]
  have hmodel : job'.model = job.model := by
    rw [LocalModel.mk.injEq]
    exact ⟨hname, hone job' hjob' hname⟩
  rw [hmodel] at hload
  obtain ⟨k, hhandle⟩ := ModelDir.load_handle hload
  rw [hsame, Loaded.answer_fresh (hdir _ _ _ hhandle), alone, hload]

private theorem sound_generate
    (hdir : ∀ path m k, dir.loadModel path = some (m, k) → Forgets m view)
    (h : Sound R dir i s) (hj : s.jobs[j]? = some (job, .ensured)) {kv : K}
    (hs : s.step R dir (.generate j kv) = some s') : Sound R dir i s' := by
  simp only [step, hj] at hs
  by_cases hpoisoned : s.poisoned = true
  · rw [if_pos hpoisoned] at hs
    obtain rfl := Option.some.inj hs
    exact h.move hj rfl h.loaded (fun _ => (h.broken hpoisoned).move hj nofun rfl)
      (fun _ _ _ _ htold => htold) fun _ _ => .inr ⟨hpoisoned, rfl⟩
  rw [if_neg hpoisoned] at hs
  cases hinner : s.inner with
  | none =>
      rw [hinner] at hs
      obtain rfl := Option.some.inj hs
      refine h.move hj rfl h.loaded (fun hbroken => absurd hbroken hpoisoned)
        (fun _ _ _ _ htold => htold) fun hij => ?_
      obtain ⟨l, hl, -⟩ := h.told job .ensured (hij ▸ hj)
      cases hinner.symm.trans hl
  | some l =>
      rw [hinner] at hs
      obtain rfl := Option.some.inj hs
      have hfile := h.loaded l hinner
      refine h.move hj rfl ?_ ?_ ?_ ?_
      · intro l' hl'
        obtain rfl := Option.some.inj hl'
        obtain ⟨job', hjob', l₀, hload, hsame⟩ := hfile
        exact ⟨job', hjob', l₀, hload, by rw [hsame]⟩
      · intro hpanicked
        exact ⟨j, job, _, l, move_get hj, hfile.move hj rfl, Prod.ext rfl hpanicked⟩
      · intro job' st hne hi htold
        cases st with
        | started => trivial
        | ensured =>
            obtain ⟨l', hl', hpath⟩ := htold
            obtain rfl := Option.some.inj (hinner.symm.trans hl')
            exact ⟨_, rfl, hpath⟩
        | sent ds =>
            exact fun hone => (htold hone).imp id fun hbroken => absurd hbroken.1 hpoisoned
      · intro hij
        obtain ⟨l', hl', hpath⟩ := h.told job .ensured (hij ▸ hj)
        obtain rfl := Option.some.inj (hinner.symm.trans hl')
        exact fun hone => .inl (answer_alone hdir hone hfile hpath).symm

theorem sound_step (hdir : ∀ path m k, dir.loadModel path = some (m, k) → Forgets m view)
    (h : Sound R dir i s) (hok : Undisturbed i s e) (hs : s.step R dir e = some s') :
    Sound R dir i s' := by
  cases e with
  | stream job =>
      obtain rfl := Option.some.inj hs
      exact sound_stream h
  | ensure j =>
      cases hj : s.jobs[j]? with
      | none => simp only [step, hj] at hs; cases hs
      | some entry =>
          obtain ⟨job, st⟩ := entry
          cases st with
          | started => exact sound_ensure h hj (fun job' hi => hok job' job hi hj) hs
          | ensured => simp only [step, hj] at hs; cases hs
          | sent ds => simp only [step, hj] at hs; cases hs
  | generate j kv =>
      cases hj : s.jobs[j]? with
      | none => simp only [step, hj] at hs; cases hs
      | some entry =>
          obtain ⟨job, st⟩ := entry
          cases st with
          | started => simp only [step, hj] at hs; cases hs
          | ensured => exact sound_generate hdir h hj hs
          | sent ds => simp only [step, hj] at hs; cases hs

/-- A turn that is not disturbed, of a file with one tokenizer, is answered as if it were the only
one, unless the driver broke in a turn before it, and then it is not answered. -/
theorem turn_alone (hdir : ∀ path m k, dir.loadModel path = some (m, k) → Forgets m view)
    {es : List (LocalEvent D F K)} (hrun : Run (step R dir) (Undisturbed i) new es s)
    {ds : List Delta} (hover : s.jobs[i]? = some (job, .sent ds))
    (hone : OneTokenizer s.asked job.model) :
    ds = alone R dir job ∨ ds = [] ∧ Broken R dir s.jobs := by
  have hsound : Sound R dir i s :=
    hrun.invariant (sound_new dir i) fun _ _ _ h hok hs => sound_step hdir h hok hs
  rcases hsound.told job _ hover hone with h | ⟨hpoisoned, hnone⟩
  · exact .inl h
  · exact .inr ⟨hnone, hsound.broken hpoisoned⟩

end LocalDriver

end Alone

/-- A model that says one letter, and fails where its context is not as long as it is told. -/
def oneLetter (logits : List ℚ) : Pipelined ℚ (List UInt32) where
  blockCount := 1
  resetCache _ := []
  forward ids pos k :=
    if pos = k.length then (.ok ⟨logits, [1, 2]⟩, k ++ ids) else (.error "llama_decode", k)
  embed _ k := (.error "", k)
  forwardRange _ _ _ _ k := (.error "", k)
  head _ k := (.error "", k)
  headAll _ k := (.error "", k)
  truncateKvTo _ k := (.ok (), k)

private theorem oneLetter_forgets (logits : List ℚ) : Forgets (oneLetter logits) id where
  resetCache _ _ := rfl
  forward ids pos k k' h := by
    obtain rfl : k = k' := h
    exact ⟨rfl, rfl⟩

def lettersTok : Tok where
  encode s := .ok (s.toList.map fun _ => 0)
  decode ids := .ok (String.ofList (ids.map fun id => if id = 0 then 'a' else 'b'))
  eosIds := []

def twoModels : ModelDir ℚ (List UInt32) where
  loadModel path :=
    if path = "a.gguf" then some (oneLetter [1, 0], [])
    else if path = "b.gguf" then some (oneLetter [0, 1], [])
    else none
  loadTok _ := some lettersTok

private theorem twoModels_forget : ∀ path m k, twoModels.loadModel path = some (m, k) →
    Forgets m id := by
  intro path m k h
  unfold twoModels at h
  dsimp only at h
  split at h
  · obtain ⟨rfl, -⟩ := Prod.mk.inj (Option.some.inj h)
    exact oneLetter_forgets _
  split at h
  · obtain ⟨rfl, -⟩ := Prod.mk.inj (Option.some.inj h)
    exact oneLetter_forgets _
  · cases h

def askFor (path : String) : Job ℚ ℚ where
  model := ⟨path, some "tokenizer.json"⟩
  messages := [⟨"user", "hi"⟩]
  cfg := { temperature := 0, topP := none, repeatPenalty := 1, repeatCtx := 64, seed := 0,
           maxNewTokens := 2 }

def oneByOne : List (LocalEvent ℚ ℚ (List UInt32)) :=
  [.stream (askFor "a.gguf"), .ensure 0, .stream (askFor "b.gguf"), .generate 0 [0, 1, 2],
    .ensure 1, .generate 1 [5]]

namespace LocalDriver

variable {D F K : Type}

/-- No model is loaded while turn `i` is between its locks. -/
def quiet (i : Nat) (s : LocalDriver D F K) : LocalEvent D F K → Bool
  | .stream _ => true
  | .ensure _ =>
      match s.jobs[i]? with
      | some (_, .ensured) => false
      | _ => true
  | .generate _ _ => true

private theorem undisturbed_of_quiet {i : Nat} {s : LocalDriver D F K} {e : LocalEvent D F K}
    (h : quiet i s e = true) : Undisturbed i s e := by
  cases e with
  | stream job => trivial
  | ensure j =>
      intro job job' hi
      simp only [quiet, hi] at h
      cases h
  | generate j kv => trivial

/-- The deltas of turn `i`. -/
def sent (i : Nat) (s : LocalDriver D F K) : Option (List Delta) :=
  match s.jobs[i]? with
  | some (_, .sent ds) => some ds
  | _ => none

private theorem sent_eq_some {i : Nat} {s : LocalDriver D F K} {ds : List Delta}
    (h : s.sent i = some ds) :
    ∃ job, s.jobs[i]? = some (job, .sent ds) := by
  unfold sent at h
  split at h
  · rename_i job ds' hget
    obtain rfl := Option.some.inj h
    exact ⟨job, hget⟩
  · cases h

theorem turn_alone_oneByOne :
    ∃ (s : LocalDriver ℚ ℚ (List UInt32)) (job : Job ℚ ℚ),
      Run (step UnitDraw twoModels) (Undisturbed 1) new oneByOne s ∧
      s.jobs[1]? = some (job, .sent [.token "b", .token "b", .done]) ∧
      alone UnitDraw twoModels job = [.token "b", .token "b", .done] := by
  have hfacts : (execChecked (step UnitDraw twoModels) (quiet 1) new oneByOne).any (fun s =>
      decide (s.sent 1 = some [.token "b", .token "b", .done] ∧
        ∀ job ∈ s.asked, job.model.tokenizer = some "tokenizer.json")) = true := by
    decide +kernel
  obtain ⟨s, hexec, hfacts⟩ := (Option.any_eq_true _ _).mp hfacts
  obtain ⟨hsent, htokenizers⟩ := of_decide_eq_true hfacts
  obtain ⟨job, hover⟩ := sent_eq_some hsent
  have hjob := htokenizers job (List.mem_map.mpr ⟨_, List.mem_of_getElem? hover, rfl⟩)
  have hrun : Run (step UnitDraw twoModels) (Undisturbed 1) new oneByOne s :=
    Run.of_execChecked hexec fun _ _ => undisturbed_of_quiet
  rcases turn_alone twoModels_forget hrun hover
    (fun job' hjob' _ => (htokenizers job' hjob').trans hjob.symm) with halone | ⟨hnone, -⟩
  · exact ⟨s, job, hrun, hover, halone.symm⟩
  · cases hnone

/-- Two turns that are started together: the second loads its model between the two locks of the
first, and both are answered by it. -/
example :
    ((exec (step UnitDraw twoModels) new [.stream (askFor "a.gguf"), .stream (askFor "b.gguf"),
      .ensure 0, .ensure 1, .generate 0 [], .generate 1 []]).bind (sent 0)) =
        some [.token "b", .token "b", .done] ∧
      alone UnitDraw twoModels (askFor "a.gguf") = [.token "a", .token "a", .done] := by
  decide +kernel

end LocalDriver

end IntelNav.App
