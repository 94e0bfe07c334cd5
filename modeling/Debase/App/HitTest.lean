import Debase.App.Press
import Debase.Library.Firsts

/-!
# What the mouse hits

`App::_hitTest` takes the first column, and in it the first panel, that the mouse is in.  A reload
puts the columns side by side, and in a column the panels below the name and below each other, so no
other column or panel is at the mouse: at any time in a session, what is hit is what is shown there.
-/

namespace Debase

open Git Library
open Ui (ScreenEvent)

namespace Ui

/-- A point is in a rectangle. -/
def Rect.Has (r : Rect) (p : Point) : Prop := (r.l ≤ p.x ∧ p.x < r.r) ∧ r.t ≤ p.y ∧ p.y < r.b

theorem hitTest_eq_true {r : Rect} {p : Point} : hitTest r p ⟨0, 0, 0, 0⟩ = true ↔ r.Has p := by
  rw [hitTest_iff]
  simp only [Int.add_zero, Int.sub_zero]
  rfl

/-- A point of a subview is in a rectangle of it where the point of the view is in the rectangle
of the view. -/
theorem hitTest_subview {r : Rect} {origin p : Point} :
    hitTest r ⟨p.x - origin.x, p.y - origin.y⟩ ⟨0, 0, 0, 0⟩ = true ↔
      Rect.Has ⟨⟨r.origin.x + origin.x, r.origin.y + origin.y⟩, r.size⟩ p := by
  rw [hitTest_eq_true]
  simp only [Rect.Has, Rect.l, Rect.r, Rect.t, Rect.b]
  omega

/-- Rectangles have a point in common where their intersection is not empty. -/
theorem not_empty_intersection_iff {r r' : Rect} :
    (!empty (intersection r r')) = true ↔ ∃ p, r.Has p ∧ r'.Has p := by
  unfold intersection Rect.Has Rect.l Rect.r Rect.t Rect.b
  dsimp only
  split
  · next hout =>
      simp only [empty]
      refine iff_of_false (by decide) ?_
      rintro ⟨p, ⟨⟨hl, hr⟩, ht, hb⟩, ⟨hl', hr'⟩, ht', hb'⟩
      omega
  · next hin =>
      refine iff_of_true ?_
        ⟨⟨max r.origin.x r'.origin.x, max r.origin.y r'.origin.y⟩, ?_⟩
      · simp only [empty, Bool.not_eq_true', Bool.or_eq_false_iff, decide_eq_false_iff_not]
        omega
      · dsimp only
        omega

section PanelFrames

variable {height : Commit → Int} {width : Int}

theorem of_mem_panelFrames {offY : Int} {panels : List Commit} {r : Rect}
    (h : r ∈ panelFrames height width offY panels) : r.origin.x = 0 ∧ r.size.x = width := by
  induction panels generalizing offY with
  | nil => cases h
  | cons c panels ih =>
      rcases List.mem_cons.mp h with rfl | h
      · exact ⟨rfl, rfl⟩
      · exact ih h

/-- The panels of a column begin at a row, one below the other. -/
theorem panelFrames_below (hheight : ∀ c, 0 ≤ height c) (offY : Int) (panels : List Commit) :
    (∀ r ∈ panelFrames height width offY panels, offY ≤ r.t) ∧
      (panelFrames height width offY panels).Pairwise fun r r' => r.b ≤ r'.t := by
  induction panels generalizing offY with
  | nil => exact ⟨fun _ h => (by cases h), .nil⟩
  | cons c panels ih =>
      obtain ⟨hfrom, hpairwise⟩ := ih (offY + height c + commitSpacing)
      have hc := hheight c
      have hspacing : 0 ≤ commitSpacing := by decide
      rw [panelFrames, List.forall_mem_cons, List.pairwise_cons]
      refine ⟨⟨Int.le_refl _, fun r hr => ?_⟩, fun r hr => ?_, hpairwise⟩
      · have := hfrom r hr
        omega
      · have := hfrom r hr
        show offY + height c ≤ r.t
        omega

end PanelFrames

end Ui

namespace App

section Column

variable (height : Commit → Int) (p : Ui.Point)

/-- What is shown of the `i`-th column at a point: its name, or one of its panels. -/
def ShownIn (i : Nat) (col : Ui.RevColumn) : HitTestResult → Prop
  | .nameField j => j = i ∧ Ui.Rect.Has ⟨col.frame.origin, ⟨col.frame.size.x, 1⟩⟩ p
  | .panel j panel => j = i ∧
      ∃ frame, (panel, frame) ∈ col.panels.zip (col.frames height) ∧ frame.Has p

/-- What is shown at a point. -/
def ShownAt (columns : List Ui.RevColumn) (r : HitTestResult) : Prop :=
  ∃ (i : Nat) (col : Ui.RevColumn), columns[i]? = some col ∧ ShownIn height p i col r

/-- What `_hitTest` finds in the `i`-th column. -/
def columnHit (i : Nat) (col : Ui.RevColumn) : Option HitTestResult :=
  let cp : Ui.Point := ⟨p.x - col.frame.origin.x, p.y - col.frame.origin.y⟩
  if hitTestNameField col cp then some (.nameField i)
  else (hitTestCommit height col cp).map (.panel i)

theorem hitTestLoop_cons (i : Nat) (col : Ui.RevColumn) (cols : List Ui.RevColumn) :
    hitTestLoop height p i (col :: cols) =
      (columnHit height p i col).or (hitTestLoop height p (i + 1) cols) := by
  rw [hitTestLoop, columnHit]
  split
  · rfl
  · cases hitTestCommit height col _ with
    | none => rfl
    | some panel => rfl

variable {height p} {i : Nat} {col : Ui.RevColumn}

/-- The panels of a column are below its name. -/
theorem frames_below (hheight : ∀ c, 0 ≤ height c) {frame : Ui.Rect}
    (h : frame ∈ col.frames height) : col.frame.t + 1 ≤ frame.t := by
  obtain ⟨inColumn, hpanel, rfl⟩ := List.mem_map.mp h
  have hfrom := (Ui.panelFrames_below hheight _ _).1 inColumn hpanel
  unfold Ui.commitsInsetY at hfrom
  show col.frame.origin.y + 1 ≤ inColumn.origin.y + col.frame.origin.y
  simp only [Ui.Rect.t] at hfrom
  omega

theorem hitTestNameField_iff :
    hitTestNameField col ⟨p.x - col.frame.origin.x, p.y - col.frame.origin.y⟩ = true ↔
      Ui.Rect.Has ⟨col.frame.origin, ⟨col.frame.size.x, 1⟩⟩ p := by
  unfold hitTestNameField
  rw [Ui.hitTest_subview, Int.zero_add, Int.zero_add]

/-- The panels of a column do not overlap, so the first that is hit is the one that is there. -/
theorem hitTestCommit_eq_some_iff (hheight : ∀ c, 0 ≤ height c) {panel : Commit} :
    hitTestCommit height col ⟨p.x - col.frame.origin.x, p.y - col.frame.origin.y⟩ = some panel ↔
      ∃ frame, (panel, frame) ∈ col.panels.zip (col.frames height) ∧ frame.Has p := by
  have hone : (col.panels.zip
      (Ui.panelFrames height col.frame.size.x Ui.commitsInsetY col.panels)).Pairwise
      fun a b => Ui.hitTest a.2 ⟨p.x - col.frame.origin.x, p.y - col.frame.origin.y⟩
          ⟨0, 0, 0, 0⟩ = true →
        Ui.hitTest b.2 ⟨p.x - col.frame.origin.x, p.y - col.frame.origin.y⟩
          ⟨0, 0, 0, 0⟩ = false := by
    have hframes := (@Ui.panelFrames_below height col.frame.size.x hheight Ui.commitsInsetY
      col.panels).2
    rw [← List.map_snd_zip (Ui.length_panelFrames height _ _ col.panels).le,
      List.pairwise_map] at hframes
    refine hframes.imp fun {a b} hbelow ha => ?_
    rw [Bool.eq_false_iff]
    intro hb
    obtain ⟨-, -, hupper⟩ := Ui.hitTest_eq_true.mp ha
    obtain ⟨-, hlower, -⟩ := Ui.hitTest_eq_true.mp hb
    omega
  unfold hitTestCommit Ui.RevColumn.frames
  rw [Option.map_eq_some_iff, List.zip_map_right]
  constructor
  · rintro ⟨⟨c, frame⟩, hfound, rfl⟩
    obtain ⟨hmem, hhit⟩ := (find?_eq_some_iff_mem hone).mp hfound
    exact ⟨_, List.mem_map_of_mem hmem, Ui.hitTest_subview.mp hhit⟩
  · rintro ⟨frame, hmem, hhas⟩
    obtain ⟨⟨c, inColumn⟩, hpanel, hshift⟩ := List.mem_map.mp hmem
    cases hshift
    exact ⟨(c, inColumn), (find?_eq_some_iff_mem hone).mpr ⟨hpanel, Ui.hitTest_subview.mpr hhas⟩,
      rfl⟩

/-- The name is above the panels. -/
theorem columnHit_eq_some_iff (hheight : ∀ c, 0 ≤ height c) {r : HitTestResult} :
    columnHit height p i col = some r ↔ ShownIn height p i col r := by
  unfold columnHit
  dsimp only
  split
  · next hname =>
      have hhas := hitTestNameField_iff.mp hname
      cases r with
      | nameField j =>
          constructor
          · rintro ⟨⟩
            exact ⟨rfl, hhas⟩
          · rintro ⟨rfl, -⟩
            rfl
      | panel j panel =>
          refine iff_of_false (fun h => by cases h) ?_
          rintro ⟨-, hpanel⟩
          -- no panel is in the row of the name
          obtain ⟨frame, hmem, hin⟩ := hpanel
          have htop : col.frame.origin.y + 1 ≤ frame.t :=
            frames_below hheight (List.of_mem_zip hmem).2
          have hbottom : p.y < col.frame.origin.y + 1 := hhas.2.2
          have hlower : frame.t ≤ p.y := hin.2.1
          omega
  · next hname =>
      cases r with
      | nameField j =>
          refine iff_of_false (fun h => ?_) fun h => hname (hitTestNameField_iff.mpr h.2)
          obtain ⟨panel, -, hpanel⟩ := Option.map_eq_some_iff.mp h
          cases hpanel
      | panel j panel =>
          rw [Option.map_eq_some_iff]
          constructor
          · rintro ⟨found, hfound, ⟨⟩⟩
            exact ⟨rfl, (hitTestCommit_eq_some_iff hheight).mp hfound⟩
          · rintro ⟨rfl, hpanel⟩
            exact ⟨panel, (hitTestCommit_eq_some_iff hheight).mpr hpanel, rfl⟩

/-- What is hit in a column is between its sides. -/
theorem columnHit_between {r : HitTestResult} (hheight : ∀ c, 0 ≤ height c)
    (h : columnHit height p i col = some r) : col.frame.l ≤ p.x ∧ p.x < col.frame.r := by
  have hshown := (columnHit_eq_some_iff hheight).mp h
  cases r with
  | nameField j => exact hshown.2.1
  | panel j panel =>
      obtain ⟨-, frame, hmem, hin, -⟩ := hshown
      obtain ⟨inColumn, hpanel, rfl⟩ := List.mem_map.mp (List.of_mem_zip hmem).2
      obtain ⟨hleft, hwidth⟩ := Ui.of_mem_panelFrames hpanel
      simp only [Ui.Rect.l, Ui.Rect.r, hleft, hwidth, Int.zero_add] at hin
      exact hin

/-- In columns that stand side by side, one of them at most is hit. -/
theorem hitTestLoop_eq_some_iff (hheight : ∀ c, 0 ≤ height c) {columns : List Ui.RevColumn}
    {k : Nat} (hcolumns : columns.Pairwise fun a b => a.frame.r ≤ b.frame.l) {r : HitTestResult} :
    hitTestLoop height p k columns = some r ↔
      ∃ (i : Nat) (col : Ui.RevColumn), columns[i]? = some col ∧
        columnHit height p (k + i) col = some r := by
  induction columns generalizing k with
  | nil => exact iff_of_false (fun h => by cases h) fun ⟨_, _, h, _⟩ => by cases h
  | cons col columns ih =>
      obtain ⟨hright, hcolumns⟩ := List.pairwise_cons.mp hcolumns
      rw [hitTestLoop_cons, Option.or_eq_some_iff, ih hcolumns]
      constructor
      · rintro (hhit | ⟨-, i, col', hget, hhit⟩)
        · exact ⟨0, col, rfl, hhit⟩
        · exact ⟨i + 1, col', hget, by rwa [← Nat.add_assoc, Nat.add_right_comm]⟩
      · rintro ⟨i, col', hget, hhit⟩
        cases i with
        | zero =>
            cases hget
            exact Or.inl hhit
        | succ i =>
            refine Or.inr ⟨?_, i, col', hget, by rwa [Nat.add_right_comm, Nat.add_assoc]⟩
            -- the first column ends before the one that is hit begins
            rw [Option.eq_none_iff_forall_ne_some]
            intro r' hhit'
            have hhere := columnHit_between hheight hhit'
            have hthere := columnHit_between hheight hhit
            have hbeside := hright col' (List.mem_of_getElem? hget)
            omega

end Column

theorem Aligned.pairwise {columns : List Ui.RevColumn} (h : Aligned columns) :
    columns.Pairwise fun a b => a.frame.r ≤ b.frame.l := by
  obtain ⟨height, sizeY, haligned⟩ := h
  rw [List.pairwise_iff_getElem]
  intro i j hi hj hlt
  obtain ⟨hframe, -⟩ := haligned i _ (List.getElem?_eq_getElem hi)
  obtain ⟨hframe', -⟩ := haligned j _ (List.getElem?_eq_getElem hj)
  rw [hframe, hframe']
  show columnX i + columnWidth ≤ columnX j
  unfold columnX columnWidth columnSpacing
  omega

/-- In columns as a reload leaves them, what is hit is what is shown. -/
theorem hitTest_eq_some_iff {κ ω : Type} {app : App κ ω} (haligned : Aligned app.columns)
    {height : Commit → Int} (hheight : ∀ c, 0 ≤ height c) {p : Ui.Point} {r : HitTestResult} :
    app.hitTest height p = some r ↔ ShownAt height p app.columns r := by
  unfold App.hitTest ShownAt
  rw [hitTestLoop_eq_some_iff hheight haligned.pairwise]
  simp only [Nat.zero_add, columnHit_eq_some_iff hheight]

namespace ShownTwice

open OneBranch (env)

end ShownTwice

/-! ## Selecting with a rectangle -/

section Rectangle

variable {height : Commit → Int} {columns : List Ui.RevColumn} {rect : Ui.Rect}

theorem shownAt_panel {p : Ui.Point} {i : Nat} {panel : Commit} :
    ShownAt height p columns (.panel i panel) ↔ ∃ col, columns[i]? = some col ∧
      ∃ frame, (panel, frame) ∈ col.panels.zip (col.frames height) ∧ frame.Has p := by
  constructor
  · rintro ⟨j, col, hget, rfl, hframe⟩
    exact ⟨col, hget, hframe⟩
  · rintro ⟨col, hget, hframe⟩
    exact ⟨i, col, hget, rfl, hframe⟩

/-- The panels that a rectangle touches are those that are shown at its points. -/
theorem mem_touched {i : Nat} {col : Ui.RevColumn} (hget : columns[i]? = some col)
    {panel : Commit} : panel ∈ Gui.touched height rect col ↔
      ∃ p, rect.Has p ∧ ShownAt height p columns (.panel i panel) := by
  simp only [shownAt_panel, hget, Option.some_inj, exists_eq_left']
  unfold Gui.touched
  rw [List.mem_toFinset, List.mem_map]
  constructor
  · rintro ⟨⟨c, frame⟩, hmem, rfl⟩
    obtain ⟨hzip, htouch⟩ := List.mem_filter.mp hmem
    obtain ⟨p, hp, hp'⟩ := Ui.not_empty_intersection_iff.mp htouch
    exact ⟨p, hp, frame, hzip, hp'⟩
  · rintro ⟨p, hp, frame, hzip, hp'⟩
    exact ⟨(panel, frame),
      List.mem_filter.mpr ⟨hzip, Ui.not_empty_intersection_iff.mpr ⟨p, hp, hp'⟩⟩, rfl⟩

/-- What a rectangle selects: nothing, if no panel is shown at its points, or what is shown there in
the leftmost column. -/
inductive Touches (height : Commit → Int) (columns : List Ui.RevColumn) (rect : Ui.Rect) :
    Ui.Selection → Prop
  | nothing (hnone : ∀ p, rect.Has p → ∀ i panel, ¬ ShownAt height p columns (.panel i panel)) :
      Touches height columns rect ⟨none, ∅⟩
  | column (i : Nat) (col : Ui.RevColumn) (commits : Finset Commit)
      (hcol : columns[i]? = some col) (hsome : commits ≠ ∅)
      (hcommits : ∀ panel, panel ∈ commits ↔
        ∃ p, rect.Has p ∧ ShownAt height p columns (.panel i panel))
      (hleft : ∀ p, rect.Has p → ∀ j panel, j < i → ¬ ShownAt height p columns (.panel j panel)) :
      Touches height columns rect ⟨some col.rev, commits⟩

theorem touches_selectionTouched (height : Commit → Int) (columns : List Ui.RevColumn)
    (rect : Ui.Rect) : Touches height columns rect (Gui.selectionTouched height rect columns) := by
  have hfree {p : Ui.Point} (hp : rect.Has p) {i : Nat} {col : Ui.RevColumn}
      (hget : columns[i]? = some col) (hempty : Gui.touched height rect col = ∅) (panel : Commit) :
      ¬ ShownAt height p columns (.panel i panel) := by
    intro hshown
    have hmem := (mem_touched hget).mpr ⟨p, hp, hshown⟩
    rw [hempty] at hmem
    exact Finset.notMem_empty panel hmem
  rcases Gui.selectionTouched_cases height rect columns with ⟨hnone, hall⟩ |
    ⟨i, col, hget, hne, heq, hleft⟩
  · rw [hnone]
    refine .nothing fun p hp i panel hshown => ?_
    obtain ⟨col, hget, -⟩ := shownAt_panel.mp hshown
    exact hfree hp hget (hall col (List.mem_of_getElem? hget)) panel hshown
  · rw [heq]
    refine .column i col _ hget hne (fun panel => mem_touched hget) fun p hp j panel hj hshown => ?_
    obtain ⟨left, hget', -⟩ := shownAt_panel.mp hshown
    exact hfree hp hget' (hleft j left hj hget') panel hshown

end Rectangle

namespace ShownTwice

open OneBranch (env press lift)

/-- A session in which the mouse is clicked one column before the panels of `main`. -/
def beside : Session (Option Commit) Unit where
  gui := Gui.start app [.resize ⟨100, 12⟩, .event (press ⟨2, 5⟩), .event (lift ⟨2, 5⟩)]
  stopped := none

end ShownTwice

end App
end Debase
