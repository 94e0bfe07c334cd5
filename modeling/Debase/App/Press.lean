import Debase.App.EventLoop

/-!
# When a press aborts

`_trackMouseInsideCommitPanel` looks up the panel of the latest commit that is selected, and aborts
if the column has none.  A column shows the commits below those that its rev skips; so a commit of
the selection may be above the first panel, and then debase aborts as soon as the mouse goes down on
the rest of the selection.  A session gets there when the same branch is shown twice, once with
commits skipped: undo selects in its own column what an operation in the other one had selected.
-/

namespace Debase

namespace Library

/-- What a search finds first in a list is in a part of the list in which something is found, if
nothing is found above that part. -/
theorem find?_mem_iff {α : Type} {p : α → Bool} {l part : List α} {skip : Nat} (hnodup : l.Nodup)
    (hpart : part <+: l.drop skip) {x : α} (hx : x ∈ part) (hp : p x = true) :
    ∃ t, l.find? p = some t ∧ (t ∈ part ↔ ∀ c ∈ l.take skip, p c = false) := by
  obtain ⟨rest, hrest⟩ := hpart
  have hsplit : l = l.take skip ++ (part ++ rest) := by rw [hrest, List.take_append_drop]
  rw [hsplit] at hnodup
  obtain ⟨-, -, hdisjoint⟩ := List.nodup_append.mp hnodup
  conv in l.find? p => rw [hsplit]
  rw [List.find?_append]
  cases habove : (l.take skip).find? p with
  | none =>
      have hnone : ∀ c ∈ l.take skip, p c = false := fun c hc =>
        Bool.not_eq_true _ |>.mp (List.find?_eq_none.mp habove c hc)
      rw [Option.none_or, List.find?_append]
      obtain ⟨t, ht⟩ := Option.isSome_iff_exists.mp (List.find?_isSome.mpr ⟨x, hx, hp⟩)
      rw [ht]
      exact ⟨t, rfl, iff_of_true (List.mem_of_find?_eq_some ht) hnone⟩
  | some t =>
      refine ⟨t, rfl, iff_of_false (fun hmem => ?_) fun hnone => ?_⟩
      · exact hdisjoint t (List.mem_of_find?_eq_some habove) t (List.mem_append_left _ hmem) rfl
      · have hno := hnone t (List.mem_of_find?_eq_some habove)
        rw [List.find?_some habove] at hno
        cases hno

end Library

open Git Library
open Ui (ScreenEvent)

namespace App

variable {κ ω : Type}

namespace Gui

section Press

variable {env : GuiEnv κ ω} {g : Gui κ ω} (mouseDownEvent : ScreenEvent) {col : Ui.RevColumn}
  {panel : Commit}

theorem same_self (rev : Rev) : rev.same rev = true := by
  unfold Rev.same Ref.same
  simp

/-- A press selects commits of its column. -/
theorem pressed_rev (app : App κ ω) (col : Ui.RevColumn) (panel : Commit) :
    sameRev (some col.rev) (pressed app col panel).rev = true := by
  unfold pressed
  split
  · exact same_self col.rev
  · next hselected =>
      rw [Bool.or_eq_true, not_or, Bool.not_eq_true', Bool.not_eq_false] at hselected
      exact (Bool.and_eq_true_iff.mp hselected.2).2

/-- A press on what is selected leaves the selection. -/
theorem pressed_of_selected {app : App κ ω} (h : app.selected col panel = true) :
    pressed app col panel = app.selection := by
  obtain ⟨hmem, hsame⟩ := Bool.and_eq_true_iff.mp h
  have hmem := of_decide_eq_true hmem
  have hsame' : sameRev app.selection.rev (some col.rev) = true := by
    cases hrev : app.selection.rev with
    | none =>
        rw [hrev] at hsame
        cases hsame
    | some rev =>
        rw [hrev] at hsame
        simp only [sameRev, Rev.same, Ref.same, Bool.and_eq_true, decide_eq_true_eq] at hsame ⊢
        obtain ⟨⟨⟨hcommit, href⟩, hskip⟩, hmutability⟩ := hsame
        exact ⟨⟨⟨hcommit.symm, href.symm⟩, hskip.symm⟩, hmutability.symm⟩
  unfold pressed
  rw [hsame', h, decide_eq_false (Finset.ne_empty_of_mem hmem), Finset.insert_eq_self.mpr hmem]
  rfl

/-- A drag starts where the latest commit that is selected has a panel. -/
theorem dragStart_eq_none_iff (htidy : Tidy g.app) (hcol : col ∈ g.app.columns)
    (hpanel : panel ∈ col.panels) {selection : Ui.Selection}
    (hrev : sameRev (some col.rev) selection.rev = true) (hselected : panel ∈ selection.commits) :
    dragStart g.app mouseDownEvent selection = none ↔
      ∃ c ∈ selection.commits, c ∈ col.rev.commit.chain.take col.rev.skip := by
  obtain ⟨height, bottom, hlaid⟩ := htidy.laid
  obtain ⟨rev, hsome⟩ : ∃ rev, selection.rev = some rev := by
    cases hnone : selection.rev with
    | none =>
        rw [hnone] at hrev
        cases hrev
    | some rev => exact ⟨rev, rfl⟩
  have hfound : (g.app.columnForRev selection.rev).isSome = true :=
    List.find?_isSome.mpr ⟨col, hcol, hrev⟩
  obtain ⟨selectionColumn, hcolumn⟩ := Option.isSome_iff_exists.mp hfound
  have hsame := columnForRev_some hcolumn
  rw [hsome] at hrev hsame
  have hthere : selectionColumn ∈ g.app.columns := List.mem_of_find?_eq_some hcolumn
  -- both columns show the same commits
  simp only [sameRev, Rev.same, Bool.and_eq_true, decide_eq_true_eq] at hrev hsame
  obtain ⟨⟨⟨hcommit, -⟩, hskip⟩, -⟩ := hrev
  obtain ⟨⟨⟨hcommit', -⟩, hskip'⟩, -⟩ := hsame
  have hpanels : selectionColumn.panels = col.panels := by
    rw [hlaid selectionColumn hthere, hlaid col hcol, hcommit, hcommit', hskip, hskip']
  have hprefix : col.panels <+: rev.commit.chain.drop col.rev.skip := by
    rw [hlaid col hcol, hcommit]
    exact Ui.fitting_prefix height bottom _
  obtain ⟨titleCommit, htitle, hiff⟩ := find?_mem_iff (p := fun c => decide (c ∈ selection.commits))
    (nodup_chain rev.commit) hprefix hpanel (decide_eq_true hselected)
  have hlatest : findLatestCommit rev.commit selection.commits = some titleCommit := htitle
  unfold dragStart
  rw [hcolumn, hsome]
  simp only [Option.bind_eq_bind, Option.bind_some, hlatest, hpanels]
  rw [hcommit]
  by_cases hmem : titleCommit ∈ col.panels
  · rw [if_pos hmem]
    refine iff_of_false (fun hno => (nomatch hno)) ?_
    rintro ⟨c, hc, habove⟩
    have hno := hiff.mp hmem c habove
    rw [decide_eq_true hc] at hno
    cases hno
  · rw [if_neg hmem]
    refine iff_of_true rfl ?_
    by_contra hnone
    refine hmem (hiff.mpr fun c habove => decide_eq_false fun hc => ?_)
    exact hnone ⟨c, hc, habove⟩

theorem dragEnd_returns (prev : Option DoubleClickState) (col : Ui.RevColumn) (panel : Commit)
    (dragging : Dragging) :
    Program.Ends (dragEnd prev col panel dragging) g (fun _ _ => True) fun _ _ => False := by
  unfold dragEnd dragOp
  refine .bind (.bind (.read ?_))
  split
  · exact .pure (.bind (.update (.pure trivial)))
  · split
    · exact .pure (.bind (.update (.pure trivial)))
    · split
      · unfold Program.Ends
        rw [click_run]
        exact trivial
      · exact .pure (.bind (.update (.pure trivial)))

variable (env) in
/-- Once a press is followed, it does not abort. -/
theorem dragLoop_dragEnd_ends (start : DragStart) (inputs : List Ui.Screen.Input)
    (prev : Option DoubleClickState) (col : Ui.RevColumn) (panel : Commit) :
    Program.Ends (dragLoop env start false mouseDownEvent inputs >>= dragEnd prev col panel) g
      (fun _ _ => True) fun e _ => e ≠ .failed .abort := by
  refine .bind ?_
  unfold Program.Ends
  rw [dragLoop_eq]
  rcases (holding inputs).2 with _ | ⟨e | release, rest⟩
  · show Stop.waiting ≠ _
    decide
  · show Stop.interrupt e ≠ _
    exact fun hno => (nomatch hno)
  · exact (dragEnd_returns prev col panel _).mono (fun _ _ h => h) fun _ _ h => h.elim

/-- A press on a panel aborts exactly where the panel is selected together with a commit above the
first panel of its column. -/
theorem trackMouseInsideCommitPanel_aborts_iff (htidy : Tidy g.app) (hcol : col ∈ g.app.columns)
    (hpanel : panel ∈ col.panels) :
    (trackMouseInsideCommitPanel env mouseDownEvent col panel g).1 = .error (.failed .abort) ↔
      g.app.selected col panel = true ∧
        ∃ c ∈ g.app.selection.commits, c ∈ col.rev.commit.chain.take col.rev.skip := by
  have hstart := dragStart_eq_none_iff mouseDownEvent htidy hcol hpanel
    (pressed_rev g.app col panel) (mem_pressed g.app col panel)
  have haborts : (trackMouseInsideCommitPanel env mouseDownEvent col panel g).1 =
      .error (.failed .abort) ↔ dragStart g.app mouseDownEvent (pressed g.app col panel) = none := by
    rw [trackMouseInsideCommitPanel_run]
    cases dragStart g.app mouseDownEvent (pressed g.app col panel) with
    | none => exact iff_of_true rfl rfl
    | some start =>
        refine iff_of_false (fun habort => ?_) (fun hno => (nomatch hno))
        have hends := dragLoop_dragEnd_ends (g := pressedGui g col panel) env mouseDownEvent start g.inputs
          g.doubleClickState col panel
        dsimp only at habort
        rcases hrun : (dragLoop env start false mouseDownEvent g.inputs >>=
          dragEnd g.doubleClickState col panel) (pressedGui g col panel) with ⟨e | op, g'⟩
        · rw [hrun] at habort
          exact hends.of_error hrun (Except.error.inj habort)
        · rw [hrun] at habort
          cases habort
  rw [haborts, hstart]
  by_cases hselected : g.app.selected col panel = true
  · rw [pressed_of_selected hselected]
    exact ⟨fun h => ⟨hselected, h⟩, fun h => h.2⟩
  · have hone : pressed g.app col panel = ⟨some col.rev, {panel}⟩ := if_pos (by simp [hselected])
    refine iff_of_false ?_ fun h => hselected h.1
    rw [hone]
    rintro ⟨c, hc, habove⟩
    obtain rfl := Finset.mem_singleton.mp hc
    -- a panel is below what its column skips
    obtain ⟨height, bottom, hlaid⟩ := htidy.laid
    have hbelow : c ∈ col.rev.commit.chain.drop col.rev.skip := by
      rw [hlaid col hcol] at hpanel
      exact (Ui.fitting_prefix height bottom _).subset hpanel
    exact List.disjoint_take_drop (nodup_chain col.rev.commit) (Nat.le_refl _) habove hbelow

end Press

end Gui

namespace ShownTwice

open HalfMove
open OneBranch (env press lift key)

def middle : Commit := .mk tree [root] (text "middle")

/-- The head of the branch. -/
def head : Commit := .mk tree [middle] (text "head")

def branch : Ref := ⟨ascii "refs/heads/main", head, none⟩

/-- The branch that is checked out. -/
def other : Ref := ⟨ascii "refs/heads/other", root, none⟩

def repo : Repository where
  refs name :=
    if name = branch.fullName then some branch.target
    else if name = other.fullName then some other.target
    else none
  head := .attached other.fullName
  upstreams _ := none

/-- `main~1`. -/
def below : Rev := { rev branch with skip := 1 }

/-- A session of `main` and `main~1`. -/
def app : App (Option Commit) Unit :=
  (start plainEnv noFault repo [rev branch, below] (fun _ => none) (fun _ => none) none false
    ⟨100, 12⟩ ()).getD (plainApp repo none [])

/-- The mouse goes down there, with the shift key. -/
def shiftPress (p : Ui.Point) : ScreenEvent := { press p with selectionShiftKeys := true }

/-- The two uppermost commits of `main` are selected and combined, which the column of `main~1`
undoes; then the mouse goes down on the commit that column shows first. -/
def session : Session (Option Commit) Unit where
  gui := Gui.start app
    [.resize ⟨100, 12⟩, .event (press ⟨10, 5⟩), .event (lift ⟨10, 5⟩), .event (shiftPress ⟨10, 7⟩),
      .event (lift ⟨10, 7⟩), .event (key Ui.Event.keyC), .event (press ⟨48, 5⟩)]
  stopped := none

def undone : List (Happening × Inputs (Option Commit)) :=
  [(.event, noFault), (.event, noFault), (.event, noFault), (.event, noFault),
    (.column (.undo 1) 0, noFault)]

/-- Whether the commit is selected in a column, and one that the column skips. -/
def skippedToo (app : App (Option Commit) Unit) (col : Ui.RevColumn) : Bool × Bool :=
  (app.selected col middle,
    decide (∃ c ∈ app.selection.commits, c ∈ col.rev.commit.chain.take col.rev.skip))

end ShownTwice

end App
end Debase
