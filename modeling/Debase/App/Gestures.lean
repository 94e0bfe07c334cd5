import Debase.App.Session
import Debase.Git.Atomic
import Debase.Ui.MenuTracking

/-!
# The mouse and the keys

`App.h`: what the application does with an event that none of its views handles.  A press of the
mouse starts a loop that reads events of its own, until the mouse comes up: `_trackMouseInsideCommitPanel`
drags commits, `_trackSelectionRect` selects what a rectangle touches, and the context menus track.

A loop is left in the middle when the window is resized or debase is to exit; the fields of the
class stay as they were then.
-/

namespace Debase

open Git Library
open Ui (ScreenEvent)

namespace App

/-- `_DoubleClickThresh`, in milliseconds. -/
def doubleClickThresh : Int := 300

/-- `_drag`: the commit whose panel is dragged, the panels below it, where the commits are to be
inserted, and whether they are copied. -/
structure Drag where
  titlePanel : Option Commit
  shadowPanels : Nat
  insertionMarker : Option Ui.Rect
  copy : Bool
deriving DecidableEq

/-- `_drag = {}`. -/
def Drag.none : Drag := ⟨.none, 0, .none, false⟩

/-- `_doubleClickState`, after a click. -/
structure DoubleClickState where
  rev : Rev
  commit : Commit
  mouseUpOrigin : Ui.Point
  mouseUpTime : Int
deriving DecidableEq

/-- The application with the fields that events change, and what is still to be read. -/
structure Gui (κ ω : Type) where
  app : App κ ω
  drag : Drag
  doubleClickState : Option DoubleClickState
  selectionRect : Option Ui.Rect
  /-- The column whose name is edited. -/
  columnNameFocused : Option Nat
  inputs : List Ui.Screen.Input

/-- Why an event is not handled to its end. -/
inductive Stop where
  | interrupt (e : Ui.Screen.Interrupt)
  | failed (e : Exn)
  /-- There is nothing to read yet. -/
  | waiting
deriving DecidableEq

/-- What surrounds the user interface. -/
structure GuiEnv (κ ω : Type) extends Env κ ω where
  /-- The frame that ncurses gives a panel on a screen, for the one that is asked for. -/
  panelFrame (screen : Ui.Size) (want : Ui.Rect) : Ui.Rect
  /-- What the user answers to a message, or that debase is to exit, and what is left to be read
  then.  The window keeps its size meanwhile. -/
  answered (inputs : List Ui.Screen.Input) : Option (Option Bool × List Ui.Screen.Input)

/-- `ConstraintNoneSize`. -/
def constraintNoneSize : Ui.Size := ⟨2 ^ 31 - 1, 2 ^ 31 - 1⟩

section Selected

variable {κ ω : Type} (app : App κ ω)

/-- `_selected`. -/
def selected (col : Ui.RevColumn) (panel : Commit) : Bool :=
  panel ∈ app.selection.commits && sameRev (some col.rev) app.selection.rev

/-- `_selectionCanBranch`. -/
def selectionCanBranch : Bool := app.selection.commits.card = 1

/-- `_selectionCanCombine`. -/
def selectionCanCombine : Bool :=
  app.selection.commits ≠ ∅ && app.selectionIsMutable && 1 < app.selection.commits.card &&
    ∀ c ∈ app.selection.commits, !c.isMerge

/-- `_selectionCanEdit`. -/
def selectionCanEdit : Bool :=
  app.selection.commits ≠ ∅ && app.selectionIsMutable && app.selection.commits.card = 1

/-- `_selectionCanDelete`. -/
def selectionCanDelete : Bool := app.selection.commits ≠ ∅ && app.selectionIsMutable

/-- `_columnForRev`. -/
def columnForRev (rev : Option Rev) : Option Ui.RevColumn :=
  app.columns.find? fun col => sameRev (some col.rev) rev

/-- `_FindLatestCommit`. -/
def findLatestCommit (head : Commit) (commits : Finset Commit) : Option Commit :=
  head.chain.find? fun c => c ∈ commits

end Selected

/-! ## Where the mouse is -/

/-- `_HitTestResult`, with the place of the column from the left. -/
inductive HitTestResult where
  | nameField (col : Nat)
  | panel (col : Nat) (panel : Commit)
deriving DecidableEq

section HitTest

variable (height : Commit → Int)

/-- `hitTestNameField`. -/
def hitTestNameField (col : Ui.RevColumn) (p : Ui.Point) : Bool :=
  Ui.hitTest ⟨⟨0, 0⟩, ⟨col.frame.size.x, 1⟩⟩ p ⟨0, 0, 0, 0⟩

/-- `hitTestCommit`. -/
def hitTestCommit (col : Ui.RevColumn) (p : Ui.Point) : Option Commit :=
  ((col.panels.zip (Ui.panelFrames height col.frame.size.x Ui.commitsInsetY col.panels)).find?
    fun panel => Ui.hitTest panel.2 p ⟨0, 0, 0, 0⟩).map Prod.fst

/-- The loop of `_hitTest`. -/
def hitTestLoop (p : Ui.Point) : Nat → List Ui.RevColumn → Option HitTestResult
  | _, [] => none
  | i, col :: cols =>
      let cp : Ui.Point := ⟨p.x - col.frame.origin.x, p.y - col.frame.origin.y⟩
      if hitTestNameField col cp then some (.nameField i)
      else
        match hitTestCommit height col cp with
        | some panel => some (.panel i panel)
        | none => hitTestLoop p (i + 1) cols

/-- `_hitTest`. -/
def hitTest {κ ω : Type} (app : App κ ω) (p : Ui.Point) : Option HitTestResult :=
  hitTestLoop height p 0 app.columns

end HitTest

/-! ## Where commits are inserted -/

section Insertion

variable {κ ω : Type} (height : Commit → Int) (app : App κ ω)

/-- The gap is moved up out of a selection. -/
def outOfSelection (col : Ui.RevColumn) : Nat → Nat
  | 0 => 0
  | i + 1 =>
      match col.panels[i]? with
      | some prevPanel => if app.selected col prevPanel then outOfSelection col i else i + 1
      | none => i + 1

/-- `_findInsertionPosition`. -/
def findInsertionPosition (p : Ui.Point) : Option Ui.InsertionPosition :=
  match Ui.nearestGap height app.columns p with
  | none => none
  | some b =>
      if !b.gap.col.rev.isMutable then none
      else some ⟨b.gap.col, app.outOfSelection b.gap.col b.gap.iter⟩

/-- The line that shows where commits are inserted. -/
def insertionMarker (ipos : Ui.InsertionPosition) : Option Ui.Rect :=
  match (ipos.col.frames height).getLast? with
  | none => none
  | some lastFrame =>
      let endY := lastFrame.origin.y + lastFrame.size.y
      let insertY :=
        match (Ui.panelFrames height ipos.col.frame.size.x Ui.commitsInsetY
          ipos.col.panels)[ipos.iter]? with
        | some frame => frame.origin.y
        | none => endY + 1
      some ⟨⟨lastFrame.origin.x - 3, insertY - 1⟩, ⟨lastFrame.size.x + 6, 0⟩⟩

end Insertion

namespace Gui

variable {κ ω : Type}

/-- Use the application as part of the user interface. -/
def inApp {α : Type} (x : Program (App κ ω) Exn α) : Program (Gui κ ω) Stop α := fun g =>
  match x g.app with
  | (.ok a, app) => (.ok a, { g with app := app })
  | (.error e, app) => (.error (.failed e), { g with app := app })

/-- Replace the selection. -/
def select (selection : Ui.Selection) : Program (Gui κ ω) Stop Unit :=
  Program.update fun g => { g with app := { g.app with selection := selection } }

/-- `eventNext`, with what is left to be read after it. -/
def eventNext (input : Ui.Screen.Input) (inputs : List Ui.Screen.Input) :
    Program (Gui κ ω) Stop ScreenEvent := do
  Program.update fun g => { g with inputs := inputs }
  match Ui.Screen.eventNext input with
  | .error e => .fail (.interrupt e)
  | .ok ev => pure ev

/-- There is nothing to read. -/
def wait {α : Type} : Program (Gui κ ω) Stop α := do
  Program.update fun g => { g with inputs := [] }
  .fail .waiting

/-! ## Dragging commits -/

section Drag

variable (env : GuiEnv κ ω)

/-- The local variables of the loop of `_trackMouseInsideCommitPanel`. -/
structure Dragging where
  ev : ScreenEvent
  ipos : Option Ui.InsertionPosition
  abort : Bool
  mouseDragged : Bool
deriving DecidableEq

/-- The mouse is more than one row or column away from where it went down. -/
def dragged (mouseDownEvent ev : ScreenEvent) : Bool :=
  1 < (mouseDownEvent.mouse.origin.x - ev.mouse.origin.x).natAbs ||
    1 < (mouseDownEvent.mouse.origin.y - ev.mouse.origin.y).natAbs

/-- The mouse is not at the edge of the window, where a drag is cancelled. -/
def allowed (app : App κ ω) (ev : ScreenEvent) : Bool :=
  Ui.hitTest ⟨⟨0, 0⟩, app.size⟩ ev.mouse.origin ⟨3, 3, 3, 3⟩

/-- What the turns of a drag have in common: the event that began it, the column of the selection
and the commit whose panel is dragged. -/
structure DragStart where
  mouseDownEvent : ScreenEvent
  selectionColumn : Ui.RevColumn
  titleCommit : Commit

/-- `_drag` after one turn of the loop. -/
def dragTurn (app : App κ ω) (start : DragStart) (drag : Drag) (mouseDragged : Bool)
    (ipos : Option Ui.InsertionPosition) (ev : ScreenEvent) : Drag :=
  let drag :=
    if drag.titlePanel.isNone && mouseDragged && allowed app ev then
      { drag with
        titlePanel := some start.titleCommit
        shadowPanels := drag.shadowPanels + (app.selection.commits.card - 1) }
    else if !allowed app ev then Drag.none
    else drag
  if drag.titlePanel.isSome then
    -- commits can only be copied from a column that must not be changed
    let forceCopy := !start.selectionColumn.rev.isMutable
    { drag with
      copy := ev.buttonAlt || forceCopy
      insertionMarker := ipos.bind (insertionMarker env.height) }
  else drag

/-- One turn of the loop of `_trackMouseInsideCommitPanel`, up to `eventNext`. -/
def dragOn (start : DragStart) (mouseDragged : Bool) (ev : ScreenEvent) :
    Program (Gui κ ω) Stop (Option Ui.InsertionPosition) := do
  let g ← Program.read
  let ipos := g.app.findInsertionPosition env.height ev.mouse.origin
  Program.update fun g => { g with drag := dragTurn env g.app start g.drag mouseDragged ipos ev }
  pure ipos

/-- The loop of `_trackMouseInsideCommitPanel`. -/
def dragLoop (start : DragStart) (mouseDragged : Bool) (ev : ScreenEvent) :
    List Ui.Screen.Input → Program (Gui κ ω) Stop Dragging
  | [] => do
      let _ ← dragOn env start (mouseDragged || dragged start.mouseDownEvent ev) ev
      wait
  | input :: inputs => do
      let mouseDragged := mouseDragged || dragged start.mouseDownEvent ev
      let ipos ← dragOn env start mouseDragged ev
      let ev ← eventNext input inputs
      if !ev.isMouse || ev.mouseUp ⟨true, false⟩ then pure ⟨ev, ipos, !ev.isMouse, mouseDragged⟩
      else dragLoop start mouseDragged ev inputs

/-- The selection once the mouse went down in a panel. -/
def pressed (app : App κ ω) (col : Ui.RevColumn) (panel : Commit) : Ui.Selection :=
  if app.selection.commits = ∅ || !sameRev app.selection.rev (some col.rev) ||
      !app.selected col panel then
    ⟨some col.rev, {panel}⟩
  else { app.selection with commits := insert panel app.selection.commits }

/-- The click is the second one on the commit. -/
def doubleClicked (prev : Option DoubleClickState) (rev : Rev) (commit : Commit)
    (ev : ScreenEvent) : Bool :=
  prev.any fun prev => prev.rev.same rev && prev.commit = commit &&
    prev.mouseUpOrigin = ev.mouse.origin && ev.now - prev.mouseUpTime < doubleClickThresh

/-- The mouse came up where it went down. -/
def click (prev : Option DoubleClickState) (col : Ui.RevColumn) (panel : Commit)
    (ev : ScreenEvent) : Program (Gui κ ω) Stop (Option Modify.Op) := do
  select ⟨some col.rev, {panel}⟩
  Program.update fun g =>
    { g with doubleClickState := some ⟨col.rev, panel, ev.mouse.origin, ev.now⟩ }
  if doubleClicked prev col.rev panel ev && col.rev.isMutable then
    pure (some ⟨.edit, ⟨some col.rev, {panel}⟩, {}⟩)
  else pure none

/-- The operation of a drag or a click. -/
def dragOp (prev : Option DoubleClickState) (col : Ui.RevColumn) (panel : Commit)
    (dragging : Dragging) : Program (Gui κ ω) Stop (Option Modify.Op) := do
  let g ← Program.read
  if dragging.abort then pure none
  else
    match g.drag.titlePanel, dragging.ipos with
    | some _, some ipos => pure (some (Ui.dropOp g.app.selection g.drag.copy ipos))
    | _, _ => if !dragging.mouseDragged then click prev col panel dragging.ev else pure none

/-- `_trackMouseInsideCommitPanel` after its loop. -/
def dragEnd (prev : Option DoubleClickState) (col : Ui.RevColumn) (panel : Commit)
    (dragging : Dragging) : Program (Gui κ ω) Stop (Option Modify.Op) := do
  let gitOp ← dragOp prev col panel dragging
  Program.update fun g => { g with drag := Drag.none }
  pure gitOp

/-- What a drag starts with: the column of the selection, and the panel in it of the latest commit
that is selected.  debase aborts if one of them is not there. -/
def dragStart (app : App κ ω) (mouseDownEvent : ScreenEvent) (selection : Ui.Selection) :
    Option DragStart := do
  let selectionColumn ← app.columnForRev selection.rev
  let rev ← selection.rev
  let titleCommit ← findLatestCommit rev.commit selection.commits
  if titleCommit ∈ selectionColumn.panels then
    some ⟨mouseDownEvent, selectionColumn, titleCommit⟩
  else none

/-- `_trackMouseInsideCommitPanel`. -/
def trackMouseInsideCommitPanel (mouseDownEvent : ScreenEvent) (col : Ui.RevColumn)
    (panel : Commit) : Program (Gui κ ω) Stop (Option Modify.Op) := do
  let g ← Program.read
  let selection := pressed g.app col panel
  Program.update fun g => { g with doubleClickState := none }
  select selection
  match dragStart g.app mouseDownEvent selection with
  | none => .fail (.failed .abort)
  | some start => do
      let dragging ← dragLoop env start false mouseDownEvent g.inputs
      dragEnd g.doubleClickState col panel dragging

end Drag

/-! ## Selecting with a rectangle -/

section Rectangle

variable (height : Commit → Int)

/-- `selectionRect`. -/
def selectionRectOf (mouseDownPos pos : Ui.Point) : Ui.Rect :=
  ⟨⟨min mouseDownPos.x pos.x, min mouseDownPos.y pos.y⟩,
    ⟨max 2 (mouseDownPos.x - pos.x).natAbs, max 2 (mouseDownPos.y - pos.y).natAbs⟩⟩

/-- The commits of a column whose panels a rectangle touches. -/
def touched (r : Ui.Rect) (col : Ui.RevColumn) : Finset Commit :=
  (((col.panels.zip (col.frames height)).filter fun panel =>
    !Ui.empty (Ui.intersection r panel.2)).map Prod.fst).toFinset

/-- `selectionNew`: the first column that is touched. -/
def selectionTouched (r : Ui.Rect) : List Ui.RevColumn → Ui.Selection
  | [] => ⟨none, ∅⟩
  | col :: cols =>
      if touched height r col ≠ ∅ then ⟨some col.rev, touched height r col⟩
      else selectionTouched r cols

/-- One turn of the loop of `_trackSelectionRect`, up to `eventNext`, for the application as it was
when the mouse went down. -/
def selectRect (old : App κ ω) (mouseDownEvent ev : ScreenEvent) : Program (Gui κ ω) Stop Unit := do
  let selectionRect := selectionRectOf mouseDownEvent.mouse.origin ev.mouse.origin
  Program.update fun g =>
    { g with
      selectionRect :=
        if g.selectionRect.isSome || dragged mouseDownEvent ev then some selectionRect
        else g.selectionRect }
  select (old.selectionSelected (selectionTouched height selectionRect old.columns)
    mouseDownEvent.selectionShiftKeys)

/-- The loop of `_trackSelectionRect`. -/
def selectionRectLoop (old : App κ ω) (mouseDownEvent ev : ScreenEvent) :
    List Ui.Screen.Input → Program (Gui κ ω) Stop Unit
  | [] => do
      selectRect height old mouseDownEvent ev
      wait
  | input :: inputs => do
      selectRect height old mouseDownEvent ev
      let ev ← eventNext input inputs
      if !ev.isMouse || ev.mouseUp ⟨true, false⟩ then pure ()
      else selectionRectLoop old mouseDownEvent ev inputs

/-- `_trackSelectionRect`. -/
def trackSelectionRect (mouseDownEvent : ScreenEvent) : Program (Gui κ ω) Stop Unit := do
  let g ← Program.read
  selectionRectLoop height g.app mouseDownEvent mouseDownEvent g.inputs
  Program.update fun g => { g with selectionRect := none }

end Rectangle

/-! ## Context menus -/

section ContextMenu

variable (env : GuiEnv κ ω)

/-- `ContextMenuWidth`. -/
def contextMenuWidth : Int := 12

/-- A context menu of buttons that are enabled or not: the button whose action was called last. -/
def trackMenu (mouseDownEvent : ScreenEvent) (enabled : List Bool) :
    Program (Gui κ ω) Stop (Option Nat) := do
  let g ← Program.read
  let buttons : List (Ui.Size × Bool) := enabled.map fun enabled => (⟨contextMenuWidth, 1⟩, enabled)
  let frame := env.panelFrame g.app.size
    ⟨mouseDownEvent.mouse.origin, Ui.Menu.ownSize constraintNoneSize (buttons.map Prod.fst)⟩
  match Ui.Menu.track (Ui.Menu.opened frame.origin frame.size buttons mouseDownEvent) g.inputs with
  | .returned menu inputs => do
      Program.update fun g => { g with inputs := inputs }
      pure menu.chosen.head?
  | .threw e inputs => do
      Program.update fun g => { g with inputs := inputs }
      .fail (.interrupt e)
  | .waiting _ => wait

/-- `_revColumnNameSetFocused(col, true, true)`, while no name is edited. -/
def revColumnNameSetFocused (i : Nat) (rev : Rev) : Program (Gui κ ω) Stop Unit :=
  Program.update fun g => { g with columnNameFocused := if rev.isMutable then some i else none }

variable [DecidableEq κ] (inputs : Inputs κ)

/-- `while (!clicked) track(Once)`, after a message was shown. -/
def ask : Program (Gui κ ω) Stop Bool := do
  let g ← Program.read
  match env.answered g.inputs with
  | none => wait
  | some (clicked, inputs') => do
      Program.update fun g => { g with inputs := inputs' }
      match clicked with
      | none => .fail (.interrupt .exitRequest)
      | some clicked => pure clicked

/-- The question of `_trackContextMenuRevNameField`, and what follows from the answer. -/
def confirmDelete (rev : Rev) : Program (Gui κ ω) Stop Unit := do
  let clicked ← ask env
  match clicked, rev.ref with
  | true, some ref => inApp (refRemove env.toEnv inputs ref)
  | true, none => .fail (.failed .abort)
  | false, _ => pure ()

/-- `_trackContextMenuRevNameField`. -/
def trackContextMenuRevNameField (mouseDownEvent : ScreenEvent) (i : Nat) (rev : Rev) :
    Program (Gui κ ω) Stop Unit := do
  let menuButton ← trackMenu env mouseDownEvent [rev.isMutable, true, rev.isMutable]
  match menuButton with
  | some 0 => revColumnNameSetFocused i rev
  | some 1 => inApp (revCreate env.toEnv inputs false rev rev.commit)
  | some 2 => confirmDelete env inputs rev
  | _ => pure ()

/-- The selection once the context menu of a commit is opened. -/
def contextSelection (app : App κ ω) (col : Ui.RevColumn) (panel : Commit) : Ui.Selection :=
  if !app.selected col panel then ⟨some col.rev, {panel}⟩ else app.selection

/-- `_trackContextMenuCommitPanel`. -/
def trackContextMenuCommitPanel (mouseDownEvent : ScreenEvent) (col : Ui.RevColumn)
    (panel : Commit) : Program (Gui κ ω) Stop (Option Modify.Op) := do
  let g ← Program.read
  select (contextSelection g.app col panel)
  let g ← Program.read
  let menuButton ← trackMenu env mouseDownEvent
    [g.app.selectionCanBranch, g.app.selectionCanCombine, g.app.selectionCanEdit,
      g.app.selectionCanDelete]
  match menuButton with
  | some 0 =>
      match theOnly g.app.selection.commits with
      | none => .fail (.failed .abort)
      | some commit => do
          inApp (revCreate env.toEnv inputs true col.rev commit)
          pure none
  | some 1 => pure (some (g.app.selectionOp .combine))
  | some 2 => pure (some (g.app.selectionOp .edit))
  | some 3 => pure (some (g.app.selectionOp .delete))
  | _ => pure none

/-! ## Events -/

/-- `if (gitOp) _gitOpExec(*gitOp)`. -/
def execIf (gitOp : Option Modify.Op) : Program (Gui κ ω) Stop Unit :=
  match gitOp with
  | none => pure ()
  | some op => inApp (gitOpExec env.toEnv inputs op)

/-- The mouse went down. -/
def handleMouseDown (ev : ScreenEvent) : Program (Gui κ ω) Stop Unit := do
  let g ← Program.read
  let hitTest := g.app.hitTest env.height ev.mouse.origin
  if ev.mouseDown ⟨true, false⟩ then
    match hitTest, ev.selectionShiftKeys with
    | some (.panel i panel), false =>
        match g.app.columns[i]? with
        | none => pure ()
        | some col => do
            let gitOp ← trackMouseInsideCommitPanel env ev col panel
            execIf env inputs gitOp
    | some (.nameField _), false => pure ()
    | _, _ => trackSelectionRect env.height ev
  else if ev.mouseDown ⟨false, true⟩ then
    match hitTest with
    | some (.nameField i) =>
        match g.app.columns[i]? with
        | none => pure ()
        | some col => trackContextMenuRevNameField env inputs ev i col.rev
    | some (.panel i panel) =>
        match g.app.columns[i]? with
        | none => pure ()
        | some col => do
            let gitOp ← trackContextMenuCommitPanel env inputs ev col panel
            execIf env inputs gitOp
    | none => pure ()
  else pure ()

/-- `handleEvent`. -/
def handleEvent (ev : ScreenEvent) : Program (Gui κ ω) Stop Unit := do
  let g ← Program.read
  if ev.isMouse then handleMouseDown env inputs ev
  else if ev.type = Ui.Event.keyDelete ∨ ev.type = Ui.Event.keyFnDelete then
    if g.app.selectionCanDelete then execIf env inputs (some (g.app.selectionOp .delete)) else pure ()
  else if ev.type = Ui.Event.keyB then
    match g.app.selectionCanBranch, g.app.selection.rev, theOnly g.app.selection.commits with
    | true, some rev, some commit => inApp (revCreate env.toEnv inputs true rev commit)
    | true, _, _ => .fail (.failed .abort)
    | false, _, _ => pure ()
  else if ev.type = Ui.Event.keyC then
    if g.app.selectionCanCombine then execIf env inputs (some (g.app.selectionOp .combine))
    else pure ()
  else if ev.type = Ui.Event.keyReturn then
    if g.app.selectionCanEdit then execIf env inputs (some (g.app.selectionOp .edit)) else pure ()
  else pure ()

end ContextMenu

/-- The user interface before anything is read. -/
def start (app : App κ ω) (inputs : List Ui.Screen.Input) : Gui κ ω where
  app := app
  drag := Drag.none
  doubleClickState := none
  selectionRect := none
  columnNameFocused := none
  inputs := inputs

end Gui

/-! ## A branch in plain surroundings -/

namespace OneBranch

open HalfMove

/-- Surroundings where panels are where they are asked to be, and every question is answered with
yes. -/
def env : GuiEnv (Option Commit) Unit where
  toEnv := plainEnv
  panelFrame _ want := want
  answered inputs := some (some true, inputs.drop 1)

/-- The branch that is checked out. -/
def branch : Ref := ⟨ascii "refs/heads/main", top, none⟩

def repo : Repository where
  refs name := if name = branch.fullName then some branch.target else none
  head := .attached branch.fullName
  upstreams _ := none

/-- The left button of the mouse goes down there. -/
def press (p : Ui.Point) : ScreenEvent :=
  { ScreenEvent.move p 0 with mouse := ⟨p, true, false, false⟩ }

/-- The left button of the mouse comes up there. -/
def lift (p : Ui.Point) : ScreenEvent :=
  { ScreenEvent.move p 0 with mouse := ⟨p, false, false, true⟩ }

/-- A key. -/
def key (type : Int) : ScreenEvent := { ScreenEvent.move ⟨0, 0⟩ 0 with type := type }

/-- A session of the branch, at its start. -/
def app : App (Option Commit) Unit := plainApp repo (some (.ofRef branch)) [rev branch]

end OneBranch

end App
end Debase
