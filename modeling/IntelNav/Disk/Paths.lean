import Mathlib.Data.List.AList

/-! Paths by their components, and maps that change in few places. -/

set_option autoImplicit false
set_option relaxedAutoImplicit false

namespace IntelNav.Disk

/-! Paths. -/

/-- One component of a path: `.` and the empty one stay, `..` goes up. -/
def enter (dir : List String) (name : String) : List String :=
  if name = "" ∨ name = "." then dir
  else if name = ".." then dir.dropLast
  else dir ++ [name]

def components (p : String) : List String := (p.toList.splitOn '/').map String.ofList

/-- Where a path leads from a directory; an absolute one leads away from it. -/
def join (dir : List String) (p : String) : List String :=
  (components p).foldl enter (if p.toList.head? = some '/' then [] else dir)

structure PlainName (s : String) : Prop where
  noSlash : '/' ∉ s.toList
  ne_empty : s ≠ ""
  ne_dot : s ≠ "."
  ne_dots : s ≠ ".."

theorem join_plain {s : String} (h : PlainName s) (dir : List String) :
    join dir s = dir ++ [s] := by
  have hhead : s.toList.head? ≠ some '/' := fun hh => h.noSlash (List.mem_of_head? hh)
  have hone : components s = [s] := by
    rw [components, List.splitOn_eq_singleton h.noSlash, List.map_singleton, String.ofList_toList]
  rw [join, hone, if_neg hhead, List.foldl_cons, List.foldl_nil, enter,
    if_neg (by simp [h.ne_empty, h.ne_dot]), if_neg h.ne_dots]

theorem PlainName.extend {s : String} (h : '/' ∉ s.toList) {ext : String}
    (hext : '/' ∉ ext.toList) (hlen : 3 ≤ ext.toList.length) : PlainName (s ++ ext) := by
  have hlong : ∀ t : String, t.toList.length < 3 → s ++ ext ≠ t := by
    intro t ht heq
    have hlength := congrArg (fun u => u.toList.length) heq
    simp only [String.toList_append, List.length_append] at hlength
    omega
  refine ⟨?_, hlong _ (by decide), hlong _ (by decide), hlong _ (by decide)⟩
  rw [String.toList_append, List.mem_append]
  exact not_or.mpr ⟨h, hext⟩

/-! The folder of a name with slashes. -/

def upToSlash (s : String) : String := String.ofList (s.toList.reverse.dropWhile (· ≠ '/')).reverse

def afterSlash (s : String) : String := String.ofList (s.toList.reverse.takeWhile (· ≠ '/')).reverse

private theorem slashless {l : List Char} (h : '/' ∉ l) : ∀ c ∈ l, decide (c ≠ '/') = true := by
  intro c hc
  rw [decide_eq_true_eq]
  intro hslash
  exact h (hslash ▸ hc)

private theorem upToSlash_plain {s : String} (h : '/' ∉ s.toList) : upToSlash s = "" := by
  have hall := slashless (l := s.toList.reverse) (by rwa [List.mem_reverse])
  have hdrop : (s.toList.reverse ++ []).dropWhile (· ≠ '/') = [] :=
    List.dropWhile_append_of_pos hall
  rw [List.append_nil] at hdrop
  rw [upToSlash, hdrop]
  rfl

private theorem afterSlash_plain {s : String} (h : '/' ∉ s.toList) : afterSlash s = s := by
  have hall := slashless (l := s.toList.reverse) (by rwa [List.mem_reverse])
  have htake : (s.toList.reverse ++ []).takeWhile (· ≠ '/') = s.toList.reverse ++ [] :=
    List.takeWhile_append_of_pos hall
  rw [List.append_nil] at htake
  rw [afterSlash, htake, List.reverse_reverse, String.ofList_toList]

private theorem slash_last {s : String} (h : '/' ∈ s.toList) :
    ∃ a b : List Char, '/' ∉ b ∧ s.toList = a ++ '/' :: b ∧
      upToSlash s = String.ofList (a ++ ['/']) ∧ afterSlash s = String.ofList b := by
  obtain ⟨b, a, hsplit, hb⟩ := List.eq_append_cons_of_mem (List.mem_reverse.mpr h)
  have hall := slashless hb
  have hdrop : (b ++ '/' :: a).dropWhile (· ≠ '/') = '/' :: a :=
    List.dropWhile_append_of_pos hall
  have htake : (b ++ '/' :: a).takeWhile (· ≠ '/') = b ++ [] :=
    List.takeWhile_append_of_pos hall
  rw [List.append_nil] at htake
  refine ⟨a.reverse, b.reverse, by rwa [List.mem_reverse], ?_, ?_, ?_⟩
  · rw [← List.reverse_reverse s.toList, hsplit, List.reverse_append, List.reverse_cons,
      List.append_assoc]
    rfl
  · rw [upToSlash, hsplit, hdrop, List.reverse_cons]
  · rw [afterSlash, hsplit, htake]

theorem join_extend (dir : List String) (s : String) {ext : String} (hext : '/' ∉ ext.toList)
    (hlen : 3 ≤ ext.toList.length) :
    join dir (s ++ ext) = join dir (upToSlash s) ++ [afterSlash s ++ ext] := by
  by_cases h : '/' ∈ s.toList
  · obtain ⟨a, b, hb, hs, hfolder, hname⟩ := slash_last h
    have hwhole : components (s ++ ext) =
        (a.splitOn '/').map String.ofList ++ [String.ofList b ++ ext] := by
      have hlist : (s ++ ext).toList = a ++ '/' :: (b ++ ext.toList) := by
        rw [String.toList_append, hs, List.append_assoc]
        rfl
      have hlast : '/' ∉ b ++ ext.toList := by
        rw [List.mem_append]
        exact not_or.mpr ⟨hb, hext⟩
      rw [components, hlist, List.splitOn_append_cons_self, List.splitOn_eq_singleton hlast,
        List.map_append, List.map_singleton, String.ofList_append, String.ofList_toList]
    have hparts : components (upToSlash s) = (a.splitOn '/').map String.ofList ++ [""] := by
      rw [components, hfolder, String.toList_ofList, List.splitOn_append_cons_self,
        List.splitOn_nil,
        List.map_append]
      rfl
    have hhead : (s ++ ext).toList.head? = (upToSlash s).toList.head? := by
      rw [String.toList_append, hs, hfolder, String.toList_ofList]
      cases a <;> rfl
    have hplain := PlainName.extend (s := String.ofList b) (by rwa [String.toList_ofList]) hext hlen
    have henter : ∀ start, enter start (String.ofList b ++ ext) =
        start ++ [String.ofList b ++ ext] := by
      intro start
      rw [enter, if_neg (not_or.mpr ⟨hplain.ne_empty, hplain.ne_dot⟩), if_neg hplain.ne_dots]
    rw [join, hwhole, hhead, List.foldl_append, List.foldl_cons, List.foldl_nil, henter, join,
      hparts, List.foldl_append, List.foldl_cons, List.foldl_nil, hname]
    rfl
  · have hnone : join dir "" = dir := rfl
    rw [upToSlash_plain h, afterSlash_plain h, hnone, join_plain (PlainName.extend h hext hlen)]

/-! Frames. -/

section Frame

variable {κ β : Type} [DecidableEq κ] {touched touched' : κ → Prop}
  {a b c : AList fun _ : κ => β}

def AgreeOff (touched : κ → Prop) (a b : AList fun _ : κ => β) : Prop :=
  ∀ p, ¬ touched p → b.lookup p = a.lookup p

theorem AgreeOff.refl (touched : κ → Prop) (a : AList fun _ : κ => β) :
    AgreeOff touched a a := fun _ _ => rfl

theorem AgreeOff.trans (h : AgreeOff touched a b) (h' : AgreeOff touched b c) :
    AgreeOff touched a c := fun p hp => (h' p hp).trans (h p hp)

theorem AgreeOff.mono (h : AgreeOff touched a b) (hsub : ∀ p, touched p → touched' p) :
    AgreeOff touched' a b := fun p hp => h p fun ht => hp (hsub p ht)

theorem agreeOff_insert {p : κ} (hp : touched p) (a : AList fun _ : κ => β) (v : β) :
    AgreeOff touched a (a.insert p v) :=
  fun _ hq => AList.lookup_insert_ne fun h => hq (h ▸ hp)

theorem agreeOff_erase {p : κ} (hp : touched p) (a : AList fun _ : κ => β) :
    AgreeOff touched a (a.erase p) :=
  fun _ hq => AList.lookup_erase_ne fun h => hq (h ▸ hp)

end Frame

end IntelNav.Disk
