import IntelNav.App.Serving
import IntelNav.Transition.Once
import IntelNav.Transition.Run

/-! The calls of `prepare_slice` that share one cache: what each does up to its next await. -/

set_option autoImplicit false
set_option relaxedAutoImplicit false

namespace IntelNav.App

open IntelNav.Runtime IntelNav.Transition

variable {F K : Type}

/-- Which file is loaded: the full GGUF, or a subset that is to be stitched. -/
inductive Source
  | full (path : String)
  | subset (blockCount : UInt16)

def SliceFiles.locate (files : SliceFiles F K) (key : SliceKey) : Except String Source :=
  let (cid, start, stop) := key
  match files.disk.kept cid with
  | none => .error s!"read kept_ranges.json of {cid}"
  | some kept =>
      if (files.disk.loadDisabled cid).contains start stop then
        .error s!"slice {start}..{stop} is disabled on disk"
      else if !kept.kept.any (fun r => r.1 = start ∧ r.2 = stop) then
        .error s!"slice {start}..{stop} not present in kept_ranges.json"
      else if kept.ggufPath ≠ "" && files.fileExists kept.ggufPath then .ok (.full kept.ggufPath)
      else .ok (.subset kept.blockCount)

/-- `stitch_subset_for`. -/
def SliceFiles.stitchSubsetFor (files : SliceFiles F K) (key : SliceKey) (blockCount : UInt16) :
    Except String String :=
  files.stitchSubset key.1 key.2.1 key.2.2 blockCount

/-- Where a call of `prepare_slice` waits: for the cache, for `kept_ranges.json`, for the stitched
file, for the model, for the cache again. -/
inductive Preparing
  | checking
  | reading
  | stitching (blockCount : UInt16)
  | loading (path : String) (localOffset : Nat)
  | inserting (n : Nat)
  | done (r : Except String Nat)

/-- The cache, the slices that were loaded with the keys they were loaded for, and the calls; a
handle is an index into `slices`. -/
structure Loader (F K : Type) where
  cache : AList fun _ : SliceKey => Nat
  slices : List (SliceKey × LoadedSlice F K)
  calls : List (SliceKey × Preparing)

namespace Loader

def empty : Loader F K := ⟨∅, [], []⟩

variable (l : Loader F K)

def setCall (i : Nat) (key : SliceKey) (p : Preparing) : Loader F K :=
  { l with calls := l.calls.set i (key, p) }

/-- The call goes on to its next await, with the files as they are now. -/
def turn (files : SliceFiles F K) (i : Nat) (key : SliceKey) : Preparing → Option (Loader F K)
  | .checking =>
      match l.cache.lookup key with
      | some n => some (l.setCall i key (.done (.ok n)))
      | none => some (l.setCall i key .reading)
  | .reading =>
      match files.locate key with
      | .error e => some (l.setCall i key (.done (.error e)))
      | .ok (.full path) => some (l.setCall i key (.loading path 0))
      | .ok (.subset blockCount) => some (l.setCall i key (.stitching blockCount))
  | .stitching blockCount =>
      match files.stitchSubsetFor key blockCount with
      | .error e => some (l.setCall i key (.done (.error e)))
      | .ok path => some (l.setCall i key (.loading path key.2.1.toNat))
  | .loading path localOffset =>
      match files.load path with
      | .error e => some (l.setCall i key (.done (.error e)))
      | .ok (handle, kv) =>
          some
            { l.setCall i key (.inserting l.slices.length) with
              slices := l.slices ++ [(key, ⟨handle, kv, localOffset⟩)] }
  | .inserting n =>
      some { l.setCall i key (.done (.ok n)) with cache := l.cache.insert key n }
  | .done _ => none

end Loader

inductive LoadEvent (F K : Type)
  | arrive (key : SliceKey)
  | turn (i : Nat) (files : SliceFiles F K)

def Loader.step (l : Loader F K) : LoadEvent F K → Option (Loader F K)
  | .arrive key => some { l with calls := l.calls ++ [(key, .checking)] }
  | .turn i files => (l.calls[i]?).bind fun c => l.turn files i c.1 c.2

/-- A call that found the cache cold and has not stored what it loads. -/
def Preparing.UnderWay : Preparing → Prop
  | .reading | .stitching _ | .loading .. | .inserting _ => True
  | .checking | .done _ => False

def Loader.UnderWay (l : Loader F K) (key : SliceKey) : Prop :=
  ∃ (i : Nat) (p : Preparing), l.calls[i]? = some (key, p) ∧ p.UnderWay

def Loader.FindsCold (key : SliceKey) (l : Loader F K) (e : LoadEvent F K) : Prop :=
  ∃ i files, e = .turn i files ∧ l.calls[i]? = some (key, .checking) ∧ l.cache.lookup key = none

/-- Nobody finds the cache cold while somebody else who did is under way. -/
def Loader.OneAtATime (key : SliceKey) (l : Loader F K) (e : LoadEvent F K) : Prop :=
  l.FindsCold key e → ¬l.UnderWay key

/-- `prepare_slice` without an interruption says where the files are in the same way. -/
private theorem resolve_eq (files : SliceFiles F K) (key : SliceKey) :
    files.resolve key =
      match files.locate key with
      | .error e => .error e
      | .ok (.full path) => .ok (path, 0)
      | .ok (.subset blockCount) =>
          (files.stitchSubsetFor key blockCount).map fun p => (p, key.2.1.toNat) := by
  obtain ⟨cid, start, stop⟩ := key
  rw [SliceFiles.resolve, SliceFiles.locate]
  cases files.disk.kept cid with
  | none => rfl
  | some kept =>
      simp only
      split
      · rfl
      · split
        · rfl
        · split <;> rfl

def Preparing.stage : Preparing → Stage
  | .checking => .asking
  | .reading | .stitching _ | .loading .. => .making
  | .inserting n => .holding n
  | .done (.ok n) => .got n
  | .done (.error _) => .failed

private theorem Preparing.busy_iff (p : Preparing) : p.stage.Busy ↔ p.UnderWay := by
  cases p with
  | done r => cases r <;> exact Iff.rfl
  | checking => exact Iff.rfl
  | reading => exact Iff.rfl
  | stitching blockCount => exact Iff.rfl
  | loading path localOffset => exact Iff.rfl
  | inserting n => exact Iff.rfl

namespace Loader

/-- The loader as calls that ask a cache, make what it does not have, and store it. -/
def once (l : Loader F K) : Once SliceKey where
  cache key := l.cache.lookup key
  made := l.slices.map Prod.fst
  calls i := (l.calls[i]?).map fun c => (c.1, c.2.stage)

variable {l l' : Loader F K} {i : Nat} {key : SliceKey} {p : Preparing}

private theorem once_calls (h : l.calls[i]? = some (key, p)) :
    l.once.calls i = some (key, p.stage) := by
  simp only [once, h, Option.map_some]

private theorem once_setCall (hi : i < l.calls.length) (key : SliceKey) (p : Preparing) :
    (l.setCall i key p).once = l.once.setCall i key p.stage := by
  have hcalls : (l.setCall i key p).once.calls = (l.once.setCall i key p.stage).calls := by
    funext j
    by_cases hj : j = i
    · rw [hj, Once.setCall_self]
      simp [once, setCall, hi]
    · rw [Once.setCall_ne hj]
      simp [once, setCall, Ne.symm hj]
  simp only [Once.setCall] at hcalls ⊢
  rw [← hcalls]
  rfl

variable {ok : Once SliceKey → SliceKey → Prop}

private theorem once_stay (h : l.calls[i]? = some (key, p)) {p' : Preparing}
    (hp : p'.stage = p.stage) :
    Once.Step ok l.once (l.setCall i key p').once := by
  obtain ⟨hi, -⟩ := List.getElem?_eq_some_iff.mp h
  have hcalls : Function.update l.once.calls i (some (key, p.stage)) = l.once.calls := by
    rw [← once_calls h, Function.update_eq_self]
  have hsame : (l.setCall i key p').once = l.once := by
    rw [once_setCall hi, hp, Once.setCall, hcalls]
  rw [hsame]
  exact .stay

private theorem once_load (hi : i < l.calls.length) (slice : LoadedSlice F K) :
    Loader.once { l.setCall i key (.inserting l.slices.length) with
      slices := l.slices ++ [(key, slice)] } =
      { l.once.setCall i key (.holding l.once.made.length) with
        made := l.once.made ++ [key] } := by
  have hlen : l.once.made.length = l.slices.length := List.length_map _
  rw [hlen, ← show (Preparing.inserting l.slices.length).stage = .holding l.slices.length from rfl,
    ← once_setCall hi]
  simp [once, setCall]

private theorem once_insert (hi : i < l.calls.length) (n : Nat) :
    Loader.once { l.setCall i key (.done (.ok n)) with cache := l.cache.insert key n } =
      { l.once.setCall i key (.got n) with
        cache := Function.update l.once.cache key (some n) } := by
  have hcache : (fun k => (l.cache.insert key n).lookup k) =
      Function.update l.once.cache key (some n) := by
    funext k
    by_cases hk : k = key
    · rw [hk, AList.lookup_insert, Function.update_self]
    · rw [AList.lookup_insert_ne hk, Function.update_of_ne hk]
      rfl
  rw [← show (Preparing.done (.ok n)).stage = .got n from rfl, ← once_setCall hi, ← hcache]
  rfl

private theorem once_turn {files : SliceFiles F K}
    (hok : p = .checking → l.cache.lookup key = none → ok l.once key)
    (hc : l.calls[i]? = some (key, p)) (h : l.turn files i key p = some l') :
    Once.Step ok l.once l'.once := by
  obtain ⟨hi, -⟩ := List.getElem?_eq_some_iff.mp hc
  have hcall := once_calls hc
  cases p with
  | checking =>
      simp only [turn] at h
      split at h
      · rename_i n hn
        obtain rfl := Option.some.inj h
        rw [once_setCall hi]
        exact .hit i key n hcall hn
      · rename_i hn
        obtain rfl := Option.some.inj h
        rw [once_setCall hi]
        exact .miss i key hcall hn (hok rfl hn)
  | reading =>
      simp only [turn] at h
      split at h
      · obtain rfl := Option.some.inj h
        rw [once_setCall hi]
        exact .fail i key hcall
      · obtain rfl := Option.some.inj h
        exact once_stay hc rfl
      · obtain rfl := Option.some.inj h
        exact once_stay hc rfl
  | stitching blockCount =>
      simp only [turn] at h
      split at h
      · obtain rfl := Option.some.inj h
        rw [once_setCall hi]
        exact .fail i key hcall
      · obtain rfl := Option.some.inj h
        exact once_stay hc rfl
  | loading path localOffset =>
      simp only [turn] at h
      split at h
      · obtain rfl := Option.some.inj h
        rw [once_setCall hi]
        exact .fail i key hcall
      · rename_i handle kv _
        obtain rfl := Option.some.inj h
        rw [once_load hi]
        exact .make i key hcall
  | inserting n =>
      obtain rfl := Option.some.inj h
      rw [once_insert hi]
      exact .store i key n hcall
  | done r => cases h

private theorem once_step {e : LoadEvent F K} (hok : ∀ key, l.FindsCold key e → ok l.once key)
    (h : l.step e = some l') : Once.Step ok l.once l'.once := by
  cases e with
  | arrive key =>
      obtain rfl := Option.some.inj h
      have hnone : l.once.calls l.calls.length = none := by
        simp [once]
      have honce : Loader.once { l with calls := l.calls ++ [(key, .checking)] } =
          l.once.setCall l.calls.length key .asking := by
        have hcalls : (Loader.once { l with calls := l.calls ++ [(key, .checking)] }).calls =
            (l.once.setCall l.calls.length key .asking).calls := by
          funext j
          by_cases hj : j = l.calls.length
          · rw [hj, Once.setCall_self]
            simp [once, Preparing.stage]
          · rw [Once.setCall_ne hj]
            simp only [once, List.getElem?_append]
            split
            · rfl
            · rename_i hlt
              have hgt : j - l.calls.length ≠ 0 := by omega
              have hout : l.calls[j]? = none := by
                apply List.getElem?_eq_none
                omega
              rw [hout]
              cases hsub : j - l.calls.length with
              | zero => exact absurd hsub hgt
              | succ k => rfl
        simp only [Once.setCall] at hcalls ⊢
        rw [← hcalls]
        rfl
      rw [honce]
      exact .arrive _ key hnone
  | turn i files =>
      obtain ⟨c, hc, hturn⟩ := Option.bind_eq_some_iff.mp h
      apply once_turn _ hc hturn
      intro hp hnone
      apply hok
      refine ⟨i, files, rfl, ?_, hnone⟩
      rw [hc, ← hp]

end Loader

/-- A slice is loaded once, and all its sessions get the same, in every run in which nobody finds
the cache cold while somebody else who did is under way. -/
theorem slice_loaded_once (key : SliceKey) {es : List (LoadEvent F K)} {l : Loader F K}
    (hrun : Run Loader.step (Loader.OneAtATime key) Loader.empty es l) :
    (l.slices.filter fun s => s.1 = key).length ≤ 1 ∧
      ∀ i j n m : Nat, l.calls[i]? = some (key, .done (.ok n)) →
        l.calls[j]? = some (key, .done (.ok m)) → n = m := by
  have hsingle : Once.Single key l.once := by
    apply hrun.invariant (I := fun l => Once.Single key l.once)
    · have hempty : (Loader.empty : Loader F K).once = ⟨fun _ => none, [], fun _ => none⟩ := rfl
      rw [hempty]
      exact .empty key
    · intro s e t hs hok hstep
      have hidle : ∀ k, s.FindsCold k e → k = key → s.once.Idle key := by
        rintro k hcold rfl i st hi hbusy
        apply hok hcold
        obtain ⟨c, hc, hst⟩ := Option.map_eq_some_iff.mp hi
        obtain ⟨hk, rfl⟩ := Prod.mk.inj hst
        refine ⟨i, c.2, ?_, (Preparing.busy_iff c.2).mp hbusy⟩
        rw [hc, ← hk]
      have honce : Once.Step (fun o k => k = key → o.Idle key) s.once t.once :=
        Loader.once_step hidle hstep
      exact hs.step (fun h => h rfl) honce
  have hmade : l.once.madeOf key = l.slices.countP fun s => s.1 = key := by
    rw [Once.madeOf, Loader.once, List.countP_map]
    rfl
  have hcount := hsingle.count_le
  rw [hmade, List.countP_eq_length_filter] at hcount
  exact ⟨hcount, fun i j n m hi hj =>
    hsingle.same (Loader.once_calls hi) (Loader.once_calls hj)⟩

section Check

variable (key : SliceKey) (l : Loader F K)

instance (p : Preparing) : Decidable p.UnderWay :=
  match p with
  | .reading | .stitching _ | .loading .. | .inserting _ => isTrue trivial
  | .checking | .done _ => isFalse id

def Preparing.isChecking : Preparing → Bool
  | .checking => true
  | _ => false

/-- `OneAtATime`, computed. -/
def Loader.oneAtATime : LoadEvent F K → Bool
  | .arrive _ => true
  | .turn i _ =>
      !(l.calls[i]?).any (fun c => c.2.isChecking) ||
        l.calls.all fun c => !(c.1 = key ∧ c.2.UnderWay)

variable {key l}

private theorem Loader.oneAtATime_sound {e : LoadEvent F K} (h : l.oneAtATime key e = true) :
    l.OneAtATime key e := by
  rintro ⟨i, files, rfl, hcall, -⟩ ⟨j, p, hj, hp⟩
  simp only [Loader.oneAtATime, hcall, Option.any_some, Preparing.isChecking, Bool.not_true,
    Bool.false_or] at h
  obtain ⟨hlt, hget⟩ := List.getElem?_eq_some_iff.mp hj
  have hnone := List.all_eq_true.mp h (key, p) (hget ▸ List.getElem_mem hlt)
  simp [hp] at hnone

end Check

private def coldKey : SliceKey := ("m", 0, 4)

private def noModel : Pipelined Unit Unit where
  blockCount := 4
  resetCache := id
  forward _ _ k := (.error "", k)
  embed _ k := (.error "", k)
  forwardRange _ _ _ _ k := (.error "", k)
  head _ k := (.error "", k)
  headAll _ k := (.error "", k)
  truncateKvTo _ k := (.ok (), k)

private def coldFiles : SliceFiles Unit Unit where
  disk := (∅ : AList _).insert "m" ⟨some ⟨"m", "m", 4, "m.gguf", [(0, 4)]⟩, none⟩
  fileExists path := path = "m.gguf"
  stitchSubset _ _ _ _ := .error ""
  load _ := .ok (noModel, ())

private def coldSlice : LoadedSlice Unit Unit := ⟨noModel, (), 0⟩

/-- Two sessions, one after the other. -/
theorem slice_loaded_once_two_sessions :
    ∃ l : Loader Unit Unit,
      Run Loader.step (Loader.OneAtATime coldKey) Loader.empty
        [.arrive coldKey, .turn 0 coldFiles, .turn 0 coldFiles, .turn 0 coldFiles,
          .turn 0 coldFiles, .arrive coldKey, .turn 1 coldFiles] l ∧
      l.calls[0]? = some (coldKey, .done (.ok 0)) ∧ l.calls[1]? = some (coldKey, .done (.ok 0)) ∧
      (l.slices.filter fun s => s.1 = coldKey).length ≤ 1 := by
  have hexec : execChecked Loader.step (Loader.oneAtATime coldKey) Loader.empty
      [.arrive coldKey, .turn 0 coldFiles, .turn 0 coldFiles, .turn 0 coldFiles,
        .turn 0 coldFiles, .arrive coldKey, .turn 1 coldFiles] =
      some ⟨(∅ : AList _).insert coldKey 0, [(coldKey, coldSlice)],
        [(coldKey, .done (.ok 0)), (coldKey, .done (.ok 0))]⟩ := rfl
  have hrun := Run.of_execChecked hexec fun _ _ => Loader.oneAtATime_sound
  exact ⟨_, hrun, rfl, rfl, (slice_loaded_once coldKey hrun).1⟩

/-- Two sessions ask before one of them has stored the slice: both load it. -/
theorem cold_slice_is_loaded_twice :
    ¬∀ (es : List (LoadEvent Unit Unit)) (l : Loader Unit Unit),
        exec Loader.step Loader.empty es = some l →
        (l.slices.filter fun s => s.1 = coldKey).length ≤ 1 ∧
          ∀ i j n m : Nat, l.calls[i]? = some (coldKey, .done (.ok n)) →
            l.calls[j]? = some (coldKey, .done (.ok m)) → n = m := by
  intro h
  have hboth := h
    [.arrive coldKey, .arrive coldKey, .turn 0 coldFiles, .turn 1 coldFiles,
      .turn 0 coldFiles, .turn 1 coldFiles, .turn 0 coldFiles, .turn 1 coldFiles,
      .turn 0 coldFiles, .turn 1 coldFiles]
    ⟨((∅ : AList _).insert coldKey 0).insert coldKey 1,
      [(coldKey, coldSlice), (coldKey, coldSlice)],
      [(coldKey, .done (.ok 0)), (coldKey, .done (.ok 1))]⟩ rfl
  have hsame := hboth.2 0 1 0 1 rfl rfl
  omega

namespace Loader

def last (l : Loader F K) (key : SliceKey) (p : Preparing) : Loader F K :=
  { l with calls := l.calls ++ [(key, p)] }

/-- The last call of `l` goes on alone until it is done with `r`, and leaves `l'`. -/
def Ends (files : SliceFiles F K) (key : SliceKey) (l : Loader F K) (p : Preparing)
    (l' : Loader F K) (r : Except String Nat) : Prop :=
  ∃ turns, exec step (l.last key p) (List.replicate turns (.turn l.calls.length files)) =
    some (l'.last key (.done r))

variable {files : SliceFiles F K} {key : SliceKey} {l m l' : Loader F K} {p p' : Preparing}
variable {r : Except String Nat}

private theorem setCall_last : (l.last key p).setCall l.calls.length key p' = l.last key p' := by
  simp [last, setCall]

theorem Ends.refl : Ends files key l (.done r) l r := ⟨0, rfl⟩

theorem Ends.turn (hends : Ends files key m p' l' r) (hcalls : m.calls = l.calls)
    (h : (l.last key p).turn files l.calls.length key p = some (m.last key p')) :
    Ends files key l p l' r := by
  obtain ⟨turns, hends⟩ := hends
  refine ⟨turns + 1, ?_⟩
  have hcall : (l.last key p).calls[l.calls.length]? = some (key, p) := by
    simp [last]
  rw [List.replicate_succ, exec, step, hcall, Option.bind_some, h, Option.bind_some, ← hends,
    hcalls]

private theorem ends_inserting (n : Nat) :
    Ends files key l (.inserting n) { l with cache := l.cache.insert key n } (.ok n) := by
  have hends : Ends files key { l with cache := l.cache.insert key n } (.done (.ok n)) _ (.ok n) :=
    .refl
  apply hends.turn (l := l) rfl
  rw [Loader.turn, setCall_last]
  rfl

private theorem ends_failed {e : String} (h : ∀ i, (l.last key p).turn files i key p =
    some ((l.last key p).setCall i key (.done (.error e)))) :
    Ends files key l p l (.error e) := by
  have hends : Ends files key l (.done (.error e)) l (.error e) := .refl
  apply hends.turn (l := l) rfl
  rw [h, setCall_last]

private theorem ends_loading {path : String} {localOffset : Nat} {handle : Pipelined F K} {kv : K}
    (h : files.load path = .ok (handle, kv)) :
    Ends files key l (.loading path localOffset)
      { l with
        cache := l.cache.insert key l.slices.length
        slices := l.slices ++ [(key, ⟨handle, kv, localOffset⟩)] } (.ok l.slices.length) := by
  have hends : Ends files key { l with slices := l.slices ++ [(key, ⟨handle, kv, localOffset⟩)] }
      (.inserting l.slices.length) _ (.ok l.slices.length) := ends_inserting _
  apply hends.turn (l := l) rfl
  rw [Loader.turn, h]
  simp only [setCall_last]
  rfl

private theorem ends_go {files : SliceFiles F K} {p p' : Preparing} {l' : Loader F K}
    {r : Except String Nat}
    (h : ∀ i, (l.last key p).turn files i key p = some ((l.last key p).setCall i key p'))
    (hends : Ends files key l p' l' r) : Ends files key l p l' r := by
  apply hends.turn (l := l) rfl
  rw [h, setCall_last]

/-- What the loading of a found file comes to. -/
private theorem ends_found (s : Server F K) (hcache : l.cache = s.cache)
    (hslices : l.slices.map Prod.snd = s.slices) (hlook : s.cache.lookup key = none)
    {path : String} {localOffset : Nat} (hres : s.files.resolve key = .ok (path, localOffset)) :
    ∃ l', Ends s.files key l (.loading path localOffset) l' (s.prepareSlice key).1 ∧
      l'.cache = (s.prepareSlice key).2.cache ∧
      l'.slices.map Prod.snd = (s.prepareSlice key).2.slices := by
  have hlen : l.slices.length = s.slices.length := by rw [← hslices, List.length_map]
  cases hl : s.files.load path with
  | error e =>
      rw [Server.prepareSlice_error s key hlook (e := e)
        (by simp only [SliceFiles.loadKey, hres, hl])]
      refine ⟨l, ends_failed ?_, hcache, hslices⟩
      intro i
      simp only [Loader.turn, hl]
  | ok loaded =>
      have hkey : s.files.loadKey key = .ok ⟨loaded.1, loaded.2, localOffset⟩ := by
        simp only [SliceFiles.loadKey, hres, hl]
      rw [Server.prepareSlice_loaded s key hlook hkey, ← hlen, ← hcache, ← hslices]
      exact ⟨_, ends_loading hl, rfl, List.map_append ..⟩

/-- A call that nobody comes between is `prepare_slice` as a whole. -/
theorem undisturbed (s : Server F K) (hcache : l.cache = s.cache)
    (hslices : l.slices.map Prod.snd = s.slices) (key : SliceKey) :
    ∃ l', Ends s.files key l .checking l' (s.prepareSlice key).1 ∧
      l'.cache = (s.prepareSlice key).2.cache ∧
      l'.slices.map Prod.snd = (s.prepareSlice key).2.slices := by
  have hlast : ∀ p, (l.last key p).cache = s.cache := fun _ => hcache
  cases hlook : s.cache.lookup key with
  | some n =>
      rw [Server.prepareSlice_cached s key hlook]
      refine ⟨l, ends_go ?_ (Ends.refl (r := .ok n)), hcache, hslices⟩
      intro i
      simp only [Loader.turn, hlast, hlook]
  | none =>
      have hcold : ∀ {l' : Loader F K} {r : Except String Nat},
          Ends s.files key l .reading l' r → Ends s.files key l .checking l' r := by
        intro l' r
        apply ends_go
        intro i
        simp only [Loader.turn, hlast, hlook]
      have hresolve := resolve_eq s.files key
      cases hloc : s.files.locate key with
      | error e =>
          simp only [hloc] at hresolve
          rw [Server.prepareSlice_error s key hlook (e := e)
            (by simp only [SliceFiles.loadKey, hresolve])]
          refine ⟨l, hcold (ends_failed ?_), hcache, hslices⟩
          intro i
          simp only [Loader.turn, hloc]
      | ok source =>
          cases source with
          | full path =>
              simp only [hloc] at hresolve
              obtain ⟨l', hends, hrest⟩ := ends_found s hcache hslices hlook hresolve
              refine ⟨l', hcold (ends_go ?_ hends), hrest⟩
              intro i
              simp only [Loader.turn, hloc]
          | subset blockCount =>
              simp only [hloc] at hresolve
              have hread : ∀ i, (l.last key .reading).turn s.files i key .reading =
                  some ((l.last key .reading).setCall i key (.stitching blockCount)) := by
                intro i
                simp only [Loader.turn, hloc]
              cases hst : s.files.stitchSubsetFor key blockCount with
              | error e =>
                  rw [hst] at hresolve
                  rw [Server.prepareSlice_error s key hlook (e := e)
                    (by simp only [SliceFiles.loadKey, hresolve, Except.map])]
                  refine ⟨l, hcold (ends_go hread (ends_failed ?_)), hcache, hslices⟩
                  intro i
                  simp only [Loader.turn, hst]
              | ok path =>
                  rw [hst] at hresolve
                  obtain ⟨l', hends, hrest⟩ := ends_found s hcache hslices hlook hresolve
                  refine ⟨l', hcold (ends_go hread (ends_go ?_ hends)), hrest⟩
                  intro i
                  simp only [Loader.turn, hst]

end Loader

end IntelNav.App
