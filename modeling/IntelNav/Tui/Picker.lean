import IntelNav.Layout.Ring
import IntelNav.Tui.StreamedText

/-! Moving in the model picker (`crates/app/src/browser.rs`): the keys go around the rows that can
be chosen. -/

set_option autoImplicit false
set_option relaxedAutoImplicit false

namespace IntelNav.Tui

open IntelNav.Layout

def SourceRow.selectable (row : SourceRow) : Bool := row.enabled || row.contributeOk

def KeyEvent.staysInPicker (k : KeyEvent) : Prop :=
  k.code ≠ .enter ∧ k.code ≠ .char 'c' ∧ k.code ≠ .esc ∧ k.code ≠ .char 'q'

def KeyEvent.rowsDown (k : KeyEvent) : Int :=
  match k.code with
  | .up | .char 'k' => -1
  | .down | .char 'j' => 1
  | _ => 0

namespace BrowserState

variable {b : BrowserState} {next : Nat → Nat} {n i : Nat}

def OnStop (b : BrowserState) : Prop := isStop SourceRow.selectable b.rows b.selected = true

def above (b : BrowserState) : Nat := stopsBefore SourceRow.selectable b.rows b.selected

def choices (b : BrowserState) : Nat := b.rows.countP SourceRow.selectable

private theorem seek_cases (b : BrowserState)
    (hnext : ∀ j, j < b.rows.length → next j < b.rows.length)
    (hi : i < b.rows.length) (n : Nat) :
    (∃ d, 0 < d ∧ d ≤ n ∧ b.seek next n i = ⟨b.rows, next^[d] i⟩ ∧
      isStop SourceRow.selectable b.rows (next^[d] i) = true ∧
      ∀ e, 0 < e → e < d → isStop SourceRow.selectable b.rows (next^[e] i) = false) ∨
    ∀ d, 0 < d → d ≤ n → isStop SourceRow.selectable b.rows (next^[d] i) = false := by
  induction n generalizing i with
  | zero =>
      right
      intro d hpos hle
      omega
  | succ n ih =>
      obtain ⟨row, hrow⟩ : ∃ row, b.rows[next i]? = some row :=
        ⟨_, List.getElem?_eq_getElem (hnext i hi)⟩
      have hstop : isStop SourceRow.selectable b.rows (next i) = row.selectable := by
        rw [isStop, hrow]
        rfl
      rw [seek, hrow]
      by_cases hsel : row.selectable = true
      · left
        refine ⟨1, Nat.one_pos, by omega, ?_, ?_, ?_⟩
        · exact if_pos hsel
        · exact hstop.trans hsel
        · intro e hpos hlt
          omega
      · have hnone := hstop.trans (Bool.eq_false_iff.mpr hsel)
        have hseek : (if row.enabled || row.contributeOk then (⟨b.rows, next i⟩ : BrowserState)
            else b.seek next n (next i)) = b.seek next n (next i) := if_neg hsel
        dsimp only
        rw [hseek]
        rcases ih (hnext i hi) with ⟨d, hpos, hle, hseek, hfound, hbetween⟩ | hno
        · left
          refine ⟨d + 1, Nat.succ_pos d, by omega, hseek, hfound, ?_⟩
          intro e he hed
          cases e with
          | zero => omega
          | succ e =>
              rcases Nat.eq_zero_or_pos e with rfl | hepos
              · exact hnone
              · exact hbetween e hepos (by omega)
        · right
          intro d hpos hle
          cases d with
          | zero => omega
          | succ d =>
              rcases Nat.eq_zero_or_pos d with rfl | hdpos
              · exact hnone
              · exact hno d hdpos (by omega)

private theorem seek_nextStop (h : b.OnStop)
    (hnext : ∀ j, j < b.rows.length → next j < b.rows.length)
    (haround : next^[b.rows.length] b.selected = b.selected) :
    ∃ j, b.seek next b.rows.length b.selected = ⟨b.rows, j⟩ ∧
      NextStop SourceRow.selectable b.rows next b.selected j := by
  have hlt := isStop_lt h
  rcases seek_cases b hnext hlt b.rows.length with ⟨d, hpos, hle, hseek, hfound, hbetween⟩ | hno
  · exact ⟨next^[d] b.selected, hseek, d, hpos, hle, rfl, hfound, hbetween⟩
  · have hself := hno b.rows.length (by omega) (Nat.le_refl _)
    rw [haround, h] at hself
    cases hself

private theorem down_above (h : b.OnStop) :
    b.down.rows = b.rows ∧ b.down.OnStop ∧ (b.down.above : Int) = (b.above + 1) % b.choices := by
  have hlt := isStop_lt h
  have haround : (forward b.rows)^[b.rows.length] b.selected = b.selected := by
    rw [iterate_forward hlt, Nat.add_mod_right, Nat.mod_eq_of_lt hlt]
  obtain ⟨j, hseek, hnext⟩ := seek_nextStop h (fun _ hj => forward_lt hj) haround
  have hdown : b.down = ⟨b.rows, j⟩ := hseek
  have habove := hnext.stopsBefore_forward h
  obtain ⟨-, -, -, -, hj, -⟩ := hnext
  rw [hdown]
  refine ⟨rfl, hj, ?_⟩
  change (stopsBefore SourceRow.selectable b.rows j : Int) = _
  rw [habove]
  push_cast
  rfl

private theorem up_above (h : b.OnStop) :
    b.up.rows = b.rows ∧ b.up.OnStop ∧ (b.up.above : Int) = (b.above - 1) % b.choices := by
  have hlt := isStop_lt h
  have haround : (backward b.rows)^[b.rows.length] b.selected = b.selected := by
    have hback := iterate_forward_backward hlt (Nat.le_refl b.rows.length)
    rw [iterate_forward (iterate_backward_lt hlt _), Nat.add_mod_right,
      Nat.mod_eq_of_lt (iterate_backward_lt hlt _), Nat.sub_self] at hback
    exact hback
  obtain ⟨j, hseek, hnext⟩ := seek_nextStop h (fun _ hj => backward_lt hj) haround
  have hup : b.up = ⟨b.rows, j⟩ := hseek
  have habove := hnext.stopsBefore_backward h
  obtain ⟨-, -, -, -, hj, -⟩ := hnext
  have hless := stopsBefore_lt hj
  rw [hup]
  refine ⟨rfl, hj, ?_⟩
  change (stopsBefore SourceRow.selectable b.rows j : Int) =
    (stopsBefore SourceRow.selectable b.rows b.selected - 1) % b.rows.countP SourceRow.selectable
  rw [habove]
  push_cast
  rw [Int.emod_sub_emod, Int.add_sub_cancel, Int.emod_eq_of_lt (Int.natCast_nonneg _)]
  exact Int.ofNat_lt.mpr hless

theorem new_onStop {rows : List SourceRow} (h : ∃ row ∈ rows, row.enabled = true) :
    (BrowserState.new rows).OnStop := by
  obtain ⟨row, hrow, henabled⟩ := h
  have hany : rows.any SourceRow.enabled = true := List.any_eq_true.mpr ⟨row, hrow, henabled⟩
  rw [← List.findIdx?_isSome] at hany
  obtain ⟨i, hi⟩ := Option.isSome_iff_exists.mp hany
  obtain ⟨hlt, hfirst, -⟩ := List.findIdx?_eq_some_iff_getElem.mp hi
  rw [OnStop, new, hi, Option.getD_some, isStop, List.getElem?_eq_getElem hlt]
  exact (Bool.or_eq_true _ _).mpr (.inl hfirst)

end BrowserState

section Keys

variable (o : Outside) {app : AppState} {b : BrowserState} {k : KeyEvent}

def AppState.press (app : AppState) (keys : List KeyEvent) : AppState :=
  keys.foldl (fun app k => (app.handleKey o k).1) app

def BrowserState.moved (b : BrowserState) (k : KeyEvent) : BrowserState :=
  match k.code with
  | .up | .char 'k' => b.up
  | .down | .char 'j' => b.down
  | _ => b

private theorem plainKey_picker (hview : app.view = .browser b) (hk : k.staysInPicker) :
    app.plainKey o k = { app with exitPending := false, view := .browser (b.moved k) } := by
  obtain ⟨henter, hc, hesc, hq⟩ := hk
  rw [AppState.plainKey]
  simp only [hview]
  unfold AppState.browserKey BrowserState.moved
  split
  all_goals simp_all

private theorem edit_view (app : AppState) : (app.edit o).view = app.view := by
  unfold AppState.edit
  split <;> rfl

private theorem handleKey_view (hview : app.view = .browser b) (hk : k.staysInPicker) :
    (app.handleKey o k).1.view = .browser (b.moved k) := by
  have hstay : ∀ c, k.code = .char c → c ≠ 'k' → c ≠ 'j' → b.moved k = b := by
    intro c hcode hup hdown
    unfold BrowserState.moved
    rw [hcode]
    split <;> simp_all
  unfold AppState.handleKey
  split
  · rename_i hcode _
    rw [hstay _ hcode (by decide) (by decide)]
    split <;> exact hview
  · rename_i hcode _
    rw [hstay _ hcode (by decide) (by decide)]
    exact (edit_view o _).trans hview
  · rename_i hcode _
    exact absurd hcode hk.2.1
  · rename_i hcode _
    rw [hstay _ hcode (by decide) (by decide)]
    exact hview
  · rename_i hcode _
    rw [hstay _ hcode (by decide) (by decide)]
    exact hview
  · rw [plainKey_picker o hview hk]

private theorem handleKey_picker (hview : app.view = .browser b) (hk : k.staysInPicker)
    (hcontrol : k.modifiers.control = false) :
    (app.handleKey o k).1 = { app with exitPending := false, view := .browser (b.moved k) } := by
  rw [← plainKey_picker o hview hk]
  unfold AppState.handleKey
  rw [hcontrol]
  split
  all_goals first | rfl | simp_all

private theorem BrowserState.moved_above (hb : b.OnStop) (k : KeyEvent) :
    (b.moved k).rows = b.rows ∧ (b.moved k).OnStop ∧
      ((b.moved k).above : Int) = (b.above + k.rowsDown) % b.choices := by
  have hup := up_above hb
  have hdown := down_above hb
  have hless : b.above < b.choices := stopsBefore_lt hb
  have hstay : (b.above : Int) = (b.above + 0) % b.choices := by
    rw [Int.add_zero, Int.emod_eq_of_lt (Int.natCast_nonneg _) (Int.ofNat_lt.mpr hless)]
  unfold moved KeyEvent.rowsDown
  split
  · exact hup
  · exact hup
  · exact hdown
  · exact hdown
  · exact ⟨rfl, hb, hstay⟩

private theorem press_picker (hview : app.view = .browser b) (hb : b.OnStop) (keys : List KeyEvent)
    (hkeys : ∀ k ∈ keys, k.staysInPicker) :
    ∃ b', (app.press o keys).view = .browser b' ∧ b'.rows = b.rows ∧ b'.OnStop ∧
      (b'.above : Int) = (b.above + (keys.map KeyEvent.rowsDown).sum) % b.choices ∧
      ((∀ k ∈ keys, k.modifiers.control = false) → ∃ exitPending,
        app.press o keys = { app with exitPending, view := .browser b' }) := by
  induction keys generalizing app b with
  | nil =>
      have hless : b.above < b.choices := stopsBefore_lt hb
      refine ⟨b, hview, rfl, hb, ?_, fun _ => ⟨app.exitPending, ?_⟩⟩
      · rw [List.map_nil, List.sum_nil, Int.add_zero, Int.emod_eq_of_lt (Int.natCast_nonneg _)]
        exact Int.ofNat_lt.mpr hless
      · change app = { app with view := .browser b }
        rw [← hview]
  | cons k keys ih =>
      obtain ⟨hk, hrest⟩ := List.forall_mem_cons.mp hkeys
      obtain ⟨hrows, hmoved, habove⟩ := BrowserState.moved_above hb k
      have hpress : app.press o (k :: keys) = AppState.press o (app.handleKey o k).1 keys := rfl
      obtain ⟨b', hlast, hrows', hb', habove', hsame⟩ :=
        ih (handleKey_view o hview hk) hmoved hrest
      have hchoices : (b.moved k).choices = b.choices := by
        rw [BrowserState.choices, hrows]
        rfl
      refine ⟨b', hlast, hrows'.trans hrows, hb', ?_, fun hplain => ?_⟩
      · rw [habove', habove, hchoices, Int.emod_add_emod, List.map_cons, List.sum_cons,
          Int.add_assoc]
      · obtain ⟨hcontrol, hplain⟩ := List.forall_mem_cons.mp hplain
        obtain ⟨exitPending, hlast⟩ := hsame hplain
        refine ⟨exitPending, ?_⟩
        rw [hpress, hlast, handleKey_picker o hview hk hcontrol]

def downKey : KeyEvent := ⟨.down, ⟨false, false, false⟩⟩

theorem exists_press (hview : app.view = .browser b) (hb : b.OnStop) {j : Nat}
    (hj : isStop SourceRow.selectable b.rows j = true) :
    ∃ n exitPending, app.press o (List.replicate n downKey) =
      { app with exitPending, view := .browser ⟨b.rows, j⟩ } := by
  have hfrom : b.above < b.choices := stopsBefore_lt hb
  have hto : stopsBefore SourceRow.selectable b.rows j < b.choices := stopsBefore_lt hj
  let n := stopsBefore SourceRow.selectable b.rows j + (b.choices - b.above)
  have hkeys : ∀ k ∈ List.replicate n downKey, k.staysInPicker := by
    intro k hk
    rw [List.eq_of_mem_replicate hk]
    exact ⟨nofun, nofun, nofun, nofun⟩
  have hplain : ∀ k ∈ List.replicate n downKey, k.modifiers.control = false := by
    intro k hk
    rw [List.eq_of_mem_replicate hk]
    rfl
  have hsum : ((List.replicate n downKey).map KeyEvent.rowsDown).sum = n := by
    rw [List.map_replicate, List.sum_replicate_int]
    exact Int.mul_one _
  obtain ⟨b', -, hrows, hstop, habove, hpress⟩ := press_picker o hview hb _ hkeys
  obtain ⟨exitPending, hpress⟩ := hpress hplain
  have hsame : b'.above = stopsBefore SourceRow.selectable b.rows j := by
    apply Int.ofNat_inj.mp
    rw [habove, hsum]
    have harrive : (b.above : Int) + n =
        stopsBefore SourceRow.selectable b.rows j + b.choices := by omega
    rw [harrive, Int.add_emod_right,
      Int.emod_eq_of_lt (Int.natCast_nonneg _) (Int.ofNat_lt.mpr hto)]
  obtain ⟨rows', selected⟩ := b'
  obtain rfl : rows' = b.rows := hrows
  obtain rfl : selected = j := stop_unique hstop hj hsame
  exact ⟨n, exitPending, hpress⟩

theorem press_append (app : AppState) (keys keys' : List KeyEvent) :
    app.press o (keys ++ keys') = (app.press o keys).press o keys' :=
  List.foldl_append

def enterKey : KeyEvent := ⟨.enter, ⟨false, false, false⟩⟩

theorem enter_cached (hview : app.view = .browser b) {row : SourceRow} {stem : String}
    (hrow : b.current = some row) (henabled : row.enabled = true)
    (hkind : row.kind = .cached stem) :
    (app.press o [enterKey]).mode = .localMode ∧ (app.press o [enterKey]).model = stem ∧
      (app.press o [enterKey]).view = .chat := by
  have hpress : app.press o [enterKey] = AppState.commitBrowser o
    { app with exitPending := false } b := by
    change app.plainKey o enterKey = _
    rw [AppState.plainKey]
    simp only [hview]
    rfl
  rw [hpress, AppState.commitBrowser, hrow]
  simp only [henabled, hkind, if_true]
  exact ⟨rfl, rfl, rfl⟩

/-- In the picker of rows of which one can be committed, whatever keys are pressed that neither
leave it nor act on a row: a row that can be chosen is selected, the one the keys have gone down
to, around these rows; and without Ctrl nothing but the selection changes. -/
theorem picker_moves (app : AppState) (rows : List SourceRow)
    (henabled : ∃ row ∈ rows, row.enabled = true) (keys : List KeyEvent)
    (hkeys : ∀ k ∈ keys, k.staysInPicker) :
    let start := BrowserState.new rows
    let shown := { app with view := .browser start }
    ∃ b, (shown.press o keys).view = .browser b ∧ b.rows = rows ∧
      (∃ row, b.current = some row ∧ row.selectable = true) ∧
      (b.above : Int) = (start.above + (keys.map KeyEvent.rowsDown).sum) % start.choices ∧
      ((∀ k ∈ keys, k.modifiers.control = false) → ∃ exitPending,
        shown.press o keys = { shown with exitPending, view := .browser b }) := by
  intro start shown
  have hview : shown.view = .browser start := rfl
  obtain ⟨b, hpress, hrows, hstop, habove, hsame⟩ :=
    press_picker o hview (BrowserState.new_onStop henabled) keys hkeys
  refine ⟨b, hpress, hrows, ?_, habove, hsame⟩
  rw [BrowserState.OnStop, isStop] at hstop
  exact (Option.any_eq_true _ _).mp hstop

end Keys

/-- A model that is there, one that does not fit, and one that some of the swarm has. -/
def threeRows : List SourceRow :=
  [⟨"a", .cached "a", true, true⟩, ⟨"b", .install "b", false, false⟩,
    ⟨"c", .swarm "c", false, true⟩]

def threeKeys : List KeyEvent :=
  [⟨.up, ⟨false, false, false⟩⟩, ⟨.char 'l', ⟨true, false, false⟩⟩, downKey, downKey]

theorem picker_moves_threeRows :
    ∃ b, (AppState.press Chat.oneModel { Chat.typedPrompt with view := .browser (.new threeRows) }
        threeKeys).view = .browser b ∧ b.rows = threeRows ∧ b.above = 1 := by
  have hkeys : ∀ k ∈ threeKeys, k.staysInPicker := by
    intro k hk
    simp only [threeKeys, downKey, List.mem_cons, List.not_mem_nil, or_false] at hk
    rcases hk with rfl | rfl | rfl | rfl
    all_goals exact ⟨nofun, nofun, nofun, nofun⟩
  obtain ⟨b, hpress, hrows, -, habove, -⟩ :=
    picker_moves Chat.oneModel Chat.typedPrompt threeRows
      ⟨_, List.mem_cons_self, rfl⟩ threeKeys hkeys
  refine ⟨b, hpress, hrows, Int.ofNat_inj.mp (habove.trans ?_)⟩
  decide

end IntelNav.Tui
