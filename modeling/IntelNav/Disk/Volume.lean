import Mathlib.Data.List.AList

/-! Files as inodes: a name leads to an inode, an open file keeps its inode when the name is moved
or removed, and to create a file that is there is to truncate its inode. -/

set_option autoImplicit false
set_option relaxedAutoImplicit false

namespace IntelNav.Disk

variable {κ α : Type} [DecidableEq κ]

/-- The names of a volume, each with an inode of its own, and the contents of all inodes so far. -/
structure Volume (κ α : Type) [DecidableEq κ] where
  entries : AList fun _ : κ => Nat
  inodes : List (List α)
  within : ∀ p i, entries.lookup p = some i → i < inodes.length
  oneName : ∀ p q i, entries.lookup p = some i → entries.lookup q = some i → p = q

abbrev ByteVolume := Volume (List String) UInt8

/-- What is written at a position, over what was there before; a gap is filled. -/
def splice [Inhabited α] (old : List α) (pos : Nat) (bytes : List α) : List α :=
  old.take pos ++ List.replicate (pos - old.length) default ++ bytes ++
    old.drop (pos + bytes.length)

private theorem splice_end [Inhabited α] (old bytes : List α) :
    splice old old.length bytes = old ++ bytes := by
  have hdrop : old.drop (old.length + bytes.length) = [] :=
    List.drop_eq_nil_of_le (Nat.le_add_right _ _)
  rw [splice, List.take_length, Nat.sub_self, List.replicate_zero, hdrop, List.append_nil,
    List.append_nil]

namespace Volume

variable (v : Volume κ α)

def inode (i : Nat) : List α := v.inodes[i]?.getD []

def content (p : κ) : Option (List α) := (v.entries.lookup p).map v.inode

def files : AList fun _ : κ => List α :=
  v.entries.keys.foldr (fun p files => files.insert p ((v.content p).getD [])) ∅

def empty : Volume κ α where
  entries := ∅
  inodes := []
  within p i h := by
    rw [AList.lookup_empty] at h
    cases h
  oneName p q i h := by
    rw [AList.lookup_empty] at h
    cases h

def create (p : κ) : Volume κ α × Nat :=
  match h : v.entries.lookup p with
  | some i =>
      ({ v with
          inodes := v.inodes.set i []
          within := fun q j hq => by
            rw [List.length_set]
            exact v.within q j hq }, i)
  | none =>
      ({ entries := v.entries.insert p v.inodes.length
         inodes := v.inodes ++ [[]]
         within := fun q j hq => by
           rw [List.length_append, List.length_singleton]
           by_cases hqp : q = p
           · rw [hqp, AList.lookup_insert] at hq
             have hj := Option.some.inj hq
             omega
           · rw [AList.lookup_insert_ne hqp] at hq
             have hj := v.within q j hq
             omega
         oneName := fun q r j hq hr => by
           have hfresh : ∀ x, v.entries.lookup x ≠ some v.inodes.length := fun x hx =>
             absurd (v.within x _ hx) (Nat.lt_irrefl _)
           by_cases hqp : q = p
           · by_cases hrp : r = p
             · rw [hqp, hrp]
             · rw [hqp, AList.lookup_insert] at hq
               rw [AList.lookup_insert_ne hrp, ← Option.some.inj hq] at hr
               exact absurd hr (hfresh r)
           · rw [AList.lookup_insert_ne hqp] at hq
             by_cases hrp : r = p
             · rw [hrp, AList.lookup_insert] at hr
               rw [← Option.some.inj hr] at hq
               exact absurd hq (hfresh q)
             · rw [AList.lookup_insert_ne hrp] at hr
               exact v.oneName q r j hq hr }, v.inodes.length)

def writeAt [Inhabited α] (i pos : Nat) (bytes : List α) : Volume κ α where
  entries := v.entries
  inodes := v.inodes.modify i fun old => splice old pos bytes
  within p j hp := by
    rw [List.length_modify]
    exact v.within p j hp
  oneName := v.oneName

def remove (p : κ) : Volume κ α where
  entries := v.entries.erase p
  inodes := v.inodes
  within q i hq := by
    by_cases hqp : q = p
    · rw [hqp, AList.lookup_erase] at hq
      cases hq
    · rw [AList.lookup_erase_ne hqp] at hq
      exact v.within q i hq
  oneName q r i hq hr := by
    by_cases hqp : q = p
    · rw [hqp, AList.lookup_erase] at hq
      cases hq
    · by_cases hrp : r = p
      · rw [hrp, AList.lookup_erase] at hr
        cases hr
      · rw [AList.lookup_erase_ne hqp] at hq
        rw [AList.lookup_erase_ne hrp] at hr
        exact v.oneName q r i hq hr

/-- The name is moved, over the one that may be there; nothing comes of it where it is missing. -/
def rename (src dst : κ) : Option (Volume κ α) :=
  match h : v.entries.lookup src with
  | none => none
  | some i =>
      some
        { entries := (v.entries.erase src).insert dst i
          inodes := v.inodes
          within := fun q j hq => by
            by_cases hqd : q = dst
            · rw [hqd, AList.lookup_insert] at hq
              exact Option.some.inj hq ▸ v.within src i h
            · rw [AList.lookup_insert_ne hqd] at hq
              exact (v.remove src).within q j hq
          oneName := fun q r j hq hr => by
            have hmoved :
              ∀ x, x ≠ dst → ((v.entries.erase src).insert dst i).lookup x ≠ some i := by
              intro x hx hi
              rw [AList.lookup_insert_ne hx] at hi
              by_cases hxs : x = src
              · rw [hxs, AList.lookup_erase] at hi
                cases hi
              · rw [AList.lookup_erase_ne hxs] at hi
                exact hxs (v.oneName x src i hi h)
            by_cases hqd : q = dst
            · by_cases hrd : r = dst
              · rw [hqd, hrd]
              · rw [hqd, AList.lookup_insert] at hq
                rw [← Option.some.inj hq] at hr
                exact absurd hr (hmoved r hrd)
            · by_cases hrd : r = dst
              · rw [hrd, AList.lookup_insert] at hr
                rw [← Option.some.inj hr] at hq
                exact absurd hq (hmoved q hqd)
              · rw [AList.lookup_insert_ne hqd] at hq
                rw [AList.lookup_insert_ne hrd] at hr
                exact (v.remove src).oneName q r j hq hr }

def put [Inhabited α] (p : κ) (bytes : List α) : Volume κ α :=
  (v.create p).1.writeAt (v.create p).2 0 bytes

variable {v} {p q : κ} {i j : Nat}

theorem content_of_lookup (h : v.entries.lookup p = some i) : v.content p = some (v.inode i) := by
  rw [content, h, Option.map_some]

private theorem content_eq_none : v.content p = none ↔ v.entries.lookup p = none :=
  Option.map_eq_none_iff

theorem lookup_files (v : Volume κ α) (p : κ) : v.files.lookup p = v.content p := by
  have hfold : ∀ keys : List κ, (keys.foldr (fun p files =>
      AList.insert p ((v.content p).getD []) files) ∅).lookup p =
      if p ∈ keys then some ((v.content p).getD []) else none := by
    intro keys
    induction keys with
    | nil => exact AList.lookup_empty p
    | cons q keys ih =>
        rw [List.foldr_cons]
        by_cases hpq : p = q
        · rw [hpq, AList.lookup_insert, if_pos List.mem_cons_self]
        · rw [AList.lookup_insert_ne hpq, ih]
          simp only [List.mem_cons, hpq, false_or]
  have hmem : p ∈ v.entries.keys ↔ (v.entries.lookup p).isSome := AList.lookup_isSome.symm
  rw [files, hfold]
  cases hlookup : v.entries.lookup p with
  | none =>
      rw [if_neg (by rw [hmem, hlookup]; exact Bool.false_ne_true)]
      rw [content_eq_none.mpr hlookup]
  | some i =>
      rw [if_pos (by rw [hmem, hlookup, Option.isSome_some]), content_of_lookup hlookup]
      rfl

@[simp] theorem content_empty (p : κ) : (empty : Volume κ α).content p = none :=
  content_eq_none.mpr (AList.lookup_empty p)

private theorem create_old (h : v.entries.lookup p = some i) :
    (v.create p).2 = i ∧ (v.create p).1.entries = v.entries ∧
      (v.create p).1.inodes = v.inodes.set i [] := by
  unfold create
  split
  · rename_i j hj
    obtain rfl : i = j := Option.some.inj (h.symm.trans hj)
    exact ⟨rfl, rfl, rfl⟩
  · rename_i hnone
    rw [h] at hnone
    cases hnone

private theorem create_new (h : v.entries.lookup p = none) :
    (v.create p).2 = v.inodes.length ∧
      (v.create p).1.entries = v.entries.insert p v.inodes.length ∧
      (v.create p).1.inodes = v.inodes ++ [[]] := by
  unfold create
  split
  · rename_i j hj
    rw [h] at hj
    cases hj
  · exact ⟨rfl, rfl, rfl⟩

variable (v p) in
theorem lookup_create : (v.create p).1.entries.lookup p = some (v.create p).2 := by
  cases h : v.entries.lookup p with
  | none =>
      obtain ⟨hhandle, hentries, -⟩ := create_new h
      rw [hhandle, hentries, AList.lookup_insert]
  | some i =>
      obtain ⟨hhandle, hentries, -⟩ := create_old h
      rw [hhandle, hentries, h]

variable (v p) in
theorem inode_create : (v.create p).1.inode (v.create p).2 = [] := by
  cases h : v.entries.lookup p with
  | none =>
      obtain ⟨hhandle, -, hinodes⟩ := create_new h
      rw [inode, hhandle, hinodes, List.getElem?_append_right (Nat.le_refl _), Nat.sub_self]
      rfl
  | some i =>
      obtain ⟨hhandle, -, hinodes⟩ := create_old h
      have hlt := v.within p i h
      rw [inode, hhandle, hinodes, List.getElem?_set_self hlt]
      rfl

private theorem lookup_create_ne (h : q ≠ p) :
    (v.create p).1.entries.lookup q = v.entries.lookup q := by
  cases hp : v.entries.lookup p with
  | none => rw [(create_new hp).2.1, AList.lookup_insert_ne h]
  | some i => rw [(create_old hp).2.1]

private theorem inode_create_ne (hi : i < v.inodes.length) (h : v.entries.lookup p ≠ some i) :
    (v.create p).1.inode i = v.inode i := by
  cases hp : v.entries.lookup p with
  | none => rw [inode, (create_new hp).2.2, List.getElem?_append_left hi, inode]
  | some j =>
      rw [hp] at h
      have hne : j ≠ i := fun heq => h (congrArg some heq)
      rw [inode, (create_old hp).2.2, inode, List.getElem?_set_ne hne]

theorem content_create_ne (h : q ≠ p) : (v.create p).1.content q = v.content q := by
  rw [content, lookup_create_ne h, content]
  cases hq : v.entries.lookup q with
  | none => rfl
  | some i =>
      rw [Option.map_some, Option.map_some, inode_create_ne (v.within q i hq)]
      exact fun hp => h (v.oneName q p i hq hp)

section Write

variable [Inhabited α] {pos : Nat} {bytes : List α}

private theorem lookup_writeAt :
    (v.writeAt i pos bytes).entries.lookup p = v.entries.lookup p := rfl

private theorem inode_writeAt (hi : i < v.inodes.length) :
    (v.writeAt i pos bytes).inode i = splice (v.inode i) pos bytes := by
  have hwritten : (v.writeAt i pos bytes).inodes[i]? =
      v.inodes[i]?.map fun old => splice old pos bytes := List.getElem?_modify_eq _ _ _
  rw [inode, hwritten, inode, List.getElem?_eq_getElem hi]
  rfl

private theorem inode_writeAt_ne (h : j ≠ i) : (v.writeAt i pos bytes).inode j = v.inode j := by
  have hkept : (v.writeAt i pos bytes).inodes[j]? = v.inodes[j]? :=
    List.getElem?_modify_ne _ _ (Ne.symm h)
  rw [inode, hkept, inode]

theorem content_writeAt_ne (h : v.entries.lookup p ≠ some i) :
    (v.writeAt i pos bytes).content p = v.content p := by
  rw [content, lookup_writeAt, content]
  cases hp : v.entries.lookup p with
  | none => rfl
  | some j =>
      rw [hp] at h
      rw [Option.map_some, Option.map_some, inode_writeAt_ne fun heq => h (congrArg some heq)]

theorem inode_writeAt_end (h : v.entries.lookup p = some i) (hpos : (v.inode i).length = pos) :
    (v.writeAt i pos bytes).inode i = v.inode i ++ bytes := by
  rw [inode_writeAt (v.within p i h), ← hpos, splice_end]

end Write

variable {v' : Volume κ α} {src dst : κ}

private theorem rename_eq_some (h : v.rename src dst = some v') :
    ∃ i, v.entries.lookup src = some i ∧ v'.entries = (v.entries.erase src).insert dst i ∧
      v'.inodes = v.inodes := by
  unfold rename at h
  split at h
  · cases h
  · rename_i i hi
    obtain rfl := Option.some.inj h
    exact ⟨i, hi, rfl, rfl⟩

theorem content_rename (h : v.rename src dst = some v') :
    v'.content dst = v.content src ∧ (src ≠ dst → v'.content src = none) ∧
      ∀ q, q ≠ src → q ≠ dst → v'.content q = v.content q := by
  obtain ⟨i, hi, hentries, hinodes⟩ := rename_eq_some h
  have hinode : v'.inode = v.inode := by
    funext j
    rw [inode, hinodes, inode]
  refine ⟨?_, fun hne => ?_, fun q hs hd => ?_⟩
  · rw [content, hentries, AList.lookup_insert, hinode, content, hi]
  · rw [content_eq_none, hentries, AList.lookup_insert_ne hne, AList.lookup_erase]
  · rw [content, hentries, AList.lookup_insert_ne hd, AList.lookup_erase_ne hs, hinode, content]

/-- The name leads to the same inode, with the same content. -/
structure SameAt (v v' : Volume κ α) (p : κ) : Prop where
  lookup : v'.entries.lookup p = v.entries.lookup p
  inode : ∀ i, v.entries.lookup p = some i → v'.inode i = v.inode i

theorem SameAt.refl (v : Volume κ α) (p : κ) : SameAt v v p := ⟨rfl, fun _ _ => rfl⟩

theorem SameAt.content (h : SameAt v v' p) : v'.content p = v.content p := by
  rw [Volume.content, Volume.content, h.lookup]
  cases hp : v.entries.lookup p with
  | none => rfl
  | some i => rw [Option.map_some, Option.map_some, h.inode i hp]

theorem sameAt_create (h : q ≠ p) : SameAt v (v.create p).1 q where
  lookup := lookup_create_ne h
  inode i hq := inode_create_ne (v.within q i hq) fun hp => h (v.oneName q p i hq hp)

theorem sameAt_writeAt [Inhabited α] {pos : Nat} {bytes : List α} (hp : v.entries.lookup p = some i)
    (h : q ≠ p) : SameAt v (v.writeAt i pos bytes) q where
  lookup := rfl
  inode j hq := inode_writeAt_ne fun hji => h (v.oneName q p j hq (hji ▸ hp))

theorem sameAt_remove (h : q ≠ p) : SameAt v (v.remove p) q where
  lookup := AList.lookup_erase_ne h
  inode _ _ := rfl

theorem sameAt_rename (hrename : v.rename src dst = some v') (hs : q ≠ src) (hd : q ≠ dst) :
    SameAt v v' q := by
  obtain ⟨i, -, hentries, hinodes⟩ := rename_eq_some hrename
  constructor
  · rw [hentries, AList.lookup_insert_ne hd, AList.lookup_erase_ne hs]
  · intro j _
    rw [Volume.inode, hinodes, Volume.inode]

end Volume

end IntelNav.Disk
