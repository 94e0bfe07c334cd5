import Debase.App.Gestures
import Debase.App.Tidy

/-!
# What a drag comes to

The loops of `_trackMouseInsideCommitPanel` and of `_trackSelectionRect` in closed form: what they
leave depends on where the mouse went down, where it was last before the button came up, and on
whether it was moved far enough between.
-/

namespace Debase

open Git Library
open Ui (ScreenEvent)

namespace App

variable {κ ω : Type}

theorem columnForRev_some {app : App κ ω} {rev : Option Rev} {col : Ui.RevColumn}
    (h : app.columnForRev rev = some col) : sameRev (some col.rev) rev = true := by
  unfold columnForRev at h
  exact List.find?_some (p := fun col : Ui.RevColumn => sameRev (some col.rev) rev) h

namespace Gui

/-- The mouse is moved, with the left button held down. -/
def held (ev : ScreenEvent) : Bool := ev.isMouse && !ev.mouseUp ⟨true, false⟩

/-- The events through which the left button is held, and what is read after them, unless there is
nothing more to read. -/
def holding : List Ui.Screen.Input →
    List ScreenEvent × Option (Except Ui.Screen.Interrupt ScreenEvent × List Ui.Screen.Input)
  | [] => ([], none)
  | input :: inputs =>
      match Ui.Screen.eventNext input with
      | .error e => ([], some (.error e, inputs))
      | .ok ev =>
          if held ev then (ev :: (holding inputs).1, (holding inputs).2)
          else ([], some (.ok ev, inputs))

/-- How a loop ends that reads while the button is held, and what it returns. -/
def ended {α : Type} (f : ScreenEvent → α) :
    Option (Except Ui.Screen.Interrupt ScreenEvent × List Ui.Screen.Input) → Except Stop α
  | none => .error .waiting
  | some (.error e, _) => .error (.interrupt e)
  | some (.ok ev, _) => .ok (f ev)

/-- What such a loop leaves to be read. -/
def leaves (end' : Option (Except Ui.Screen.Interrupt ScreenEvent × List Ui.Screen.Input)) :
    List Ui.Screen.Input := (end'.map Prod.snd).getD []

section Holding

variable {input : Ui.Screen.Input} {inputs : List Ui.Screen.Input} {ev : ScreenEvent}

theorem holding_error {e : Ui.Screen.Interrupt} (h : Ui.Screen.eventNext input = .error e) :
    holding (input :: inputs) = ([], some (.error e, inputs)) := by
  rw [holding, h]

theorem holding_held (h : Ui.Screen.eventNext input = .ok ev) (hheld : held ev = true) :
    holding (input :: inputs) = (ev :: (holding inputs).1, (holding inputs).2) := by
  rw [holding, h]
  exact if_pos hheld

theorem holding_last (h : Ui.Screen.eventNext input = .ok ev) (hheld : held ev = false) :
    holding (input :: inputs) = ([], some (.ok ev, inputs)) := by
  rw [holding, h]
  exact if_neg (by rw [hheld]; decide)

end Holding

theorem not_held_iff (ev : ScreenEvent) :
    (!ev.isMouse || ev.mouseUp ⟨true, false⟩) = !held ev := by
  unfold held
  cases ev.isMouse <;> cases ev.mouseUp ⟨true, false⟩ <;> rfl

theorem eventNext_run (input : Ui.Screen.Input) (inputs : List Ui.Screen.Input) (g : Gui κ ω) :
    eventNext input inputs g =
      (match Ui.Screen.eventNext input with
        | .error e => .error (.interrupt e)
        | .ok ev => .ok ev, { g with inputs := inputs }) := by
  unfold eventNext
  rw [Program.bind_run_ok (Program.update_run _ g)]
  cases Ui.Screen.eventNext input <;> rfl

theorem wait_run {α : Type} (g : Gui κ ω) :
    (wait : Program (Gui κ ω) Stop α) g = (.error .waiting, { g with inputs := [] }) := by
  unfold wait
  rw [Program.bind_run_ok (Program.update_run _ g)]
  rfl

theorem select_run (selection : Ui.Selection) (g : Gui κ ω) :
    select selection g = (.ok (), { g with app := { g.app with selection := selection } }) := rfl

theorem dragStart_some {app : App κ ω} {mouseDownEvent : ScreenEvent} {selection : Ui.Selection}
    {start : DragStart} (h : dragStart app mouseDownEvent selection = some start) :
    start.mouseDownEvent = mouseDownEvent ∧ selection.rev.isSome ∧
      sameRev (some start.selectionColumn.rev) selection.rev = true := by
  unfold dragStart at h
  simp only [Option.bind_eq_bind, Option.bind_eq_some_iff] at h
  obtain ⟨selectionColumn, hcolumn, rev, hrev, titleCommit, -, h⟩ := h
  split at h
  · cases h
    exact ⟨rfl, by rw [hrev]; rfl, columnForRev_some hcolumn⟩
  · cases h

section Drag

variable (env : GuiEnv κ ω) (app : App κ ω) (start : DragStart)

/-- `_drag` after the turns of the loop for some events. -/
def dragTurns : Bool → Drag → List ScreenEvent → Drag
  | _, drag, [] => drag
  | mouseDragged, drag, ev :: evs =>
      let mouseDragged := mouseDragged || dragged start.mouseDownEvent ev
      dragTurns mouseDragged (dragTurn env app start drag mouseDragged
        (app.findInsertionPosition env.height ev.mouse.origin) ev) evs

theorem dragTurns_concat (mouseDragged : Bool) (drag : Drag) (evs : List ScreenEvent)
    (ev : ScreenEvent) : dragTurns env app start mouseDragged drag (evs ++ [ev]) =
      dragTurn env app start (dragTurns env app start mouseDragged drag evs)
        (mouseDragged || (evs ++ [ev]).any (dragged start.mouseDownEvent))
        (app.findInsertionPosition env.height ev.mouse.origin) ev := by
  induction evs generalizing mouseDragged drag with
  | nil => simp [dragTurns]
  | cons first evs ih =>
      rw [List.cons_append, dragTurns, ih, List.any_cons, Bool.or_assoc]
      rfl

/-- Away from the edge of the window a panel is dragged on, and it is dragged from the turn on in
which the mouse has been moved far enough. -/
theorem isSome_dragTurn (drag : Drag) (mouseDragged : Bool) (ipos : Option Ui.InsertionPosition)
    (ev : ScreenEvent) : (dragTurn env app start drag mouseDragged ipos ev).titlePanel.isSome =
      (allowed app ev && (drag.titlePanel.isSome || mouseDragged)) := by
  unfold dragTurn Drag.none
  cases allowed app ev <;> cases mouseDragged <;> cases htitle : drag.titlePanel <;> simp [htitle]

/-- Whether a panel is dragged after some turns: not where the mouse is at the edge in the last one,
and else if the mouse has been moved far enough, or if a panel was dragged before and the mouse was
never at the edge. -/
theorem isSome_dragTurns (mouseDragged : Bool) (drag : Drag) (ev : ScreenEvent)
    (taken : List ScreenEvent) :
    (dragTurns env app start mouseDragged drag (ev :: taken)).titlePanel.isSome =
      (allowed app (taken.getLastD ev) && (drag.titlePanel.isSome && (ev :: taken).all (allowed app) ||
        (mouseDragged || (ev :: taken).any (dragged start.mouseDownEvent)))) := by
  induction taken using List.reverseRecOn with
  | nil =>
      refine (isSome_dragTurn env app start drag _ _ ev).trans ?_
      rw [List.getLastD_nil, List.all_cons, List.all_nil, List.any_cons, List.any_nil]
      cases allowed app ev <;> simp
  | append_singleton taken last ih =>
      have hall : (ev :: taken).all (allowed app) = true →
          allowed app (taken.getLastD ev) = true :=
        fun h => List.all_eq_true.mp h _ List.getLastD_mem_cons
      have hlast (p : ScreenEvent → Bool) : [last].all p = p last ∧ [last].any p = p last := by
        simp
      rw [← List.cons_append, dragTurns_concat, isSome_dragTurn, ih, List.getLastD_concat,
        List.all_append, List.any_append, (hlast _).1, (hlast _).2]
      revert hall
      generalize (ev :: taken).all (allowed app) = inside
      generalize (ev :: taken).any (dragged start.mouseDownEvent) = moved
      cases allowed app last <;> cases inside <;> cases moved <;> cases mouseDragged <;>
        cases drag.titlePanel.isSome <;> simp +contextual

/-- What is dragged is copied as the button of the last event says. -/
theorem copy_dragTurn {drag : Drag} {mouseDragged : Bool} {ipos : Option Ui.InsertionPosition}
    {ev : ScreenEvent} (h : (dragTurn env app start drag mouseDragged ipos ev).titlePanel.isSome) :
    (dragTurn env app start drag mouseDragged ipos ev).copy =
      (ev.buttonAlt || !start.selectionColumn.rev.isMutable) := by
  unfold dragTurn at h ⊢
  generalize (if drag.titlePanel.isNone && mouseDragged && allowed app ev then _ else _ : Drag) =
    shown at h ⊢
  by_cases hsome : shown.titlePanel.isSome = true
  · simp [hsome]
  · simp [hsome] at h

theorem copy_dragTurns {drag : Drag} (mouseDragged : Bool) (ev : ScreenEvent)
    (taken : List ScreenEvent)
    (h : (dragTurns env app start mouseDragged drag (ev :: taken)).titlePanel.isSome) :
    (dragTurns env app start mouseDragged drag (ev :: taken)).copy =
      ((taken.getLastD ev).buttonAlt || !start.selectionColumn.rev.isMutable) := by
  induction taken using List.reverseRecOn with
  | nil => exact copy_dragTurn env app start h
  | append_singleton taken last _ =>
      rw [← List.cons_append, dragTurns_concat] at h ⊢
      rw [List.getLastD_concat]
      exact copy_dragTurn env app start h

/-- The loop reads while the button is held. -/
theorem dragLoop_eq (mouseDragged : Bool) (ev : ScreenEvent) (inputs : List Ui.Screen.Input)
    (g : Gui κ ω) : dragLoop env start mouseDragged ev inputs g =
      (ended (fun last => ⟨last, g.app.findInsertionPosition env.height
          ((holding inputs).1.getLastD ev).mouse.origin, !last.isMouse,
          mouseDragged || (ev :: (holding inputs).1).any (dragged start.mouseDownEvent)⟩)
        (holding inputs).2,
      { g with
        drag := dragTurns env g.app start mouseDragged g.drag (ev :: (holding inputs).1)
        inputs := leaves (holding inputs).2 }) := by
  have hturn (mouseDragged : Bool) (ev : ScreenEvent) (g : Gui κ ω) :
      dragOn env start mouseDragged ev g =
        (.ok (g.app.findInsertionPosition env.height ev.mouse.origin),
          { g with
            drag := dragTurn env g.app start g.drag mouseDragged
              (g.app.findInsertionPosition env.height ev.mouse.origin) ev }) := rfl
  induction inputs generalizing mouseDragged ev g with
  | nil =>
      rw [dragLoop, Program.bind_run_ok (hturn _ ev g), wait_run]
      rfl
  | cons input inputs ih =>
      rw [dragLoop, Program.bind_run_ok (hturn _ ev g)]
      cases hnext : Ui.Screen.eventNext input with
      | error e =>
          rw [Program.bind_run_error (by rw [eventNext_run, hnext]), holding_error hnext]
          rfl
      | ok next =>
          rw [Program.bind_run_ok (by rw [eventNext_run, hnext]), not_held_iff]
          cases hheld : held next with
          | true =>
              rw [holding_held hnext hheld, List.getLastD_cons, List.any_cons, ← Bool.or_assoc]
              exact ih _ next _
          | false =>
              rw [holding_last hnext hheld]
              show (Except.ok _, _) = (Except.ok _, _)
              rw [List.any_cons, List.any_nil, Bool.or_false]
              rfl

/-- The user interface once the mouse went down in a panel. -/
def pressedGui (g : Gui κ ω) (col : Ui.RevColumn) (panel : Commit) : Gui κ ω :=
  { g with
    app := { g.app with selection := pressed g.app col panel }
    doubleClickState := none }

/-- The press is followed to the end of its loop, or debase aborts. -/
theorem trackMouseInsideCommitPanel_run (mouseDownEvent : ScreenEvent) (col : Ui.RevColumn)
    (panel : Commit) (g : Gui κ ω) :
    trackMouseInsideCommitPanel env mouseDownEvent col panel g =
      match dragStart g.app mouseDownEvent (pressed g.app col panel) with
      | none => (.error (.failed .abort), pressedGui g col panel)
      | some start =>
          (dragLoop env start false mouseDownEvent g.inputs >>=
            dragEnd g.doubleClickState col panel) (pressedGui g col panel) := by
  unfold trackMouseInsideCommitPanel
  rw [Program.bind_run_ok (Program.read_run g)]
  have hdown : (Program.update fun g : Gui κ ω => { g with doubleClickState := none }) g =
      ((.ok () : Except Stop Unit), { g with doubleClickState := none }) := rfl
  rw [Program.bind_run_ok hdown, Program.bind_run_ok (select_run _ _)]
  cases dragStart g.app mouseDownEvent (pressed g.app col panel) with
  | none => rfl
  | some start => rfl

/-- The operation of a drag: the commits are dropped where the mouse was last, unless that is at the
edge of the window or over a column that must not be changed. -/
def dropAt (last : ScreenEvent) : Option Modify.Op :=
  (if allowed app last then app.findInsertionPosition env.height last.mouse.origin else none).map
    (Ui.dropOp app.selection (last.buttonAlt || !start.selectionColumn.rev.isMutable))

/-- What a press comes to when the loop is left by an event. -/
def dragOutcome (prev : Option DoubleClickState) (col : Ui.RevColumn) (panel : Commit)
    (evs : List ScreenEvent) (last release : ScreenEvent) :
    Program (Gui κ ω) Stop (Option Modify.Op) :=
  if !release.isMouse then pure none
  else if evs.any (dragged start.mouseDownEvent) then pure (dropAt env app start last)
  else click prev col panel release

/-- The operation of a click. -/
def clickOp (prev : Option DoubleClickState) (col : Ui.RevColumn) (panel : Commit)
    (ev : ScreenEvent) : Option Modify.Op :=
  if doubleClicked prev col.rev panel ev && col.rev.isMutable then
    some ⟨.edit, ⟨some col.rev, {panel}⟩, {}⟩
  else none

theorem click_run (prev : Option DoubleClickState) (col : Ui.RevColumn) (panel : Commit)
    (ev : ScreenEvent) (g : Gui κ ω) : click prev col panel ev g =
      (.ok (clickOp prev col panel ev),
        { g with
          app := { g.app with selection := ⟨some col.rev, {panel}⟩ }
          doubleClickState := some ⟨col.rev, panel, ev.mouse.origin, ev.now⟩ }) := by
  unfold click clickOp
  rw [Program.bind_run_ok (select_run _ g)]
  cases doubleClicked prev col.rev panel ev && col.rev.isMutable <;> rfl

/-- What a press comes to when the loop is left by an event and a panel may be dragged already when
the mouse goes down: then the mouse need not be moved, unless it is at the edge of the window at
some time. -/
def resumedOutcome (dragging : Bool) (prev : Option DoubleClickState) (col : Ui.RevColumn)
    (panel : Commit) (evs : List ScreenEvent) (last release : ScreenEvent) :
    Program (Gui κ ω) Stop (Option Modify.Op) :=
  if !release.isMouse then pure none
  else
    match if dragging && evs.all (allowed app) || evs.any (dragged start.mouseDownEvent) then
        dropAt env app start last
      else none with
    | some op => pure (some op)
    | none =>
        if evs.any (dragged start.mouseDownEvent) then pure none else click prev col panel release

/-- Without a panel that is dragged already, this is what a press comes to. -/
theorem resumedOutcome_false (prev : Option DoubleClickState) (col : Ui.RevColumn) (panel : Commit)
    (evs : List ScreenEvent) (last release : ScreenEvent) :
    resumedOutcome (κ := κ) (ω := ω) env app start false prev col panel evs last release =
      dragOutcome env app start prev col panel evs last release := by
  unfold resumedOutcome dragOutcome
  cases release.isMouse with
  | false => rfl
  | true =>
      cases evs.any (dragged start.mouseDownEvent) with
      | false => rfl
      | true => cases dropAt env app start last <;> simp

/-- The end of a press, after the turns of its loop. -/
theorem dragEnd_dragTurns (prev : Option DoubleClickState) (col : Ui.RevColumn) (panel : Commit)
    (g : Gui κ ω) (ev : ScreenEvent) (taken : List ScreenEvent) (release : ScreenEvent) :
    dragEnd prev col panel
        ⟨release, g.app.findInsertionPosition env.height (taken.getLastD ev).mouse.origin,
          !release.isMouse, (ev :: taken).any (dragged start.mouseDownEvent)⟩
        { g with drag := dragTurns env g.app start false g.drag (ev :: taken) } =
      resumedOutcome env g.app start g.drag.titlePanel.isSome prev col panel (ev :: taken)
        (taken.getLastD ev) release { g with drag := Drag.none } := by
  have hsome := isSome_dragTurns env g.app start false g.drag ev taken
  have hcopy := @copy_dragTurns _ _ env g.app start g.drag false ev taken
  rw [Bool.false_or] at hsome
  unfold resumedOutcome dragEnd dragOp
  rw [bind_assoc, Program.bind_run_ok (Program.read_run _)]
  generalize dragTurns env g.app start false g.drag (ev :: taken) = drag at hsome hcopy ⊢
  generalize (ev :: taken).any (dragged start.mouseDownEvent) = moved at hsome ⊢
  generalize (g.drag.titlePanel.isSome && (ev :: taken).all (allowed g.app) || moved) = dragging
    at hsome ⊢
  have hclick : ∀ d, (click prev col panel release >>= fun gitOp => do
        Program.update fun g => { g with drag := Drag.none }
        pure gitOp) { g with drag := d } =
      click prev col panel release { g with drag := Drag.none } := by
    intro d
    rw [Program.bind_run_ok (click_run prev col panel release _), click_run]
    rfl
  cases release.isMouse with
  | false => rfl
  | true =>
      cases htitle : drag.titlePanel with
      | none =>
          -- nothing is dragged at the end
          have hnot : (if dragging then dropAt env g.app start (taken.getLastD ev) else none) =
              none := by
            rw [htitle] at hsome
            unfold dropAt
            cases dragging with
            | false => rfl
            | true =>
                rw [Option.isSome_none, Bool.and_true] at hsome
                rw [← hsome]
                rfl
          dsimp only
          rw [hnot]
          cases moved with
          | true => rfl
          | false => exact hclick drag
      | some titlePanel =>
          rw [htitle, Option.isSome_some, eq_comm, Bool.and_eq_true_iff] at hsome
          obtain ⟨hallowed, rfl⟩ := hsome
          have hdropped := hcopy (by rw [htitle]; rfl)
          unfold dropAt
          rw [if_pos rfl, hallowed, ← hdropped]
          cases g.app.findInsertionPosition env.height (taken.getLastD ev).mouse.origin with
          | some ipos => rfl
          | none =>
              cases moved with
              | true => rfl
              | false => exact hclick drag

/-- A press in a panel whose loop is left by an event. -/
theorem trackMouseInsideCommitPanel_ended {mouseDownEvent release : ScreenEvent}
    {col : Ui.RevColumn} {panel : Commit} {g : Gui κ ω} {rest : List Ui.Screen.Input}
    {start : DragStart}
    (hstart : dragStart g.app mouseDownEvent (pressed g.app col panel) = some start)
    (hends : (holding g.inputs).2 = some (.ok release, rest)) :
    trackMouseInsideCommitPanel env mouseDownEvent col panel g =
      resumedOutcome env (pressedGui g col panel).app start g.drag.titlePanel.isSome
        g.doubleClickState col panel (mouseDownEvent :: (holding g.inputs).1)
        ((holding g.inputs).1.getLastD mouseDownEvent) release
        { pressedGui g col panel with drag := Drag.none, inputs := rest } := by
  have hloop := dragLoop_eq env start false mouseDownEvent g.inputs (pressedGui g col panel)
  rw [hends, Bool.false_or] at hloop
  rw [trackMouseInsideCommitPanel_run, hstart]
  refine (Program.bind_run_ok hloop _).trans ?_
  exact dragEnd_dragTurns env start g.doubleClickState col panel
    { pressedGui g col panel with inputs := rest } mouseDownEvent (holding g.inputs).1 release

/-- A press in a panel that ends while nothing else was dragged before: what it does depends on
where the mouse went down, whether it was ever moved far enough, and where it was last before it
came up. -/
theorem trackMouseInsideCommitPanel_released {mouseDownEvent release : ScreenEvent}
    {col : Ui.RevColumn} {panel : Commit} {g : Gui κ ω} {rest : List Ui.Screen.Input}
    {start : DragStart} (hfresh : g.drag = Drag.none)
    (hstart : dragStart g.app mouseDownEvent (pressed g.app col panel) = some start)
    (hends : (holding g.inputs).2 = some (.ok release, rest)) :
    trackMouseInsideCommitPanel env mouseDownEvent col panel g =
      dragOutcome env (pressedGui g col panel).app start g.doubleClickState col panel
        (mouseDownEvent :: (holding g.inputs).1) ((holding g.inputs).1.getLastD mouseDownEvent) release
        { pressedGui g col panel with inputs := rest } := by
  have hnone : { pressedGui g col panel with drag := Drag.none, inputs := rest } =
      { pressedGui g col panel with inputs := rest } := by
    rw [← hfresh]
    rfl
  rw [trackMouseInsideCommitPanel_ended env hstart hends, hnone, hfresh]
  exact congrFun (resumedOutcome_false env _ start _ col panel _ _ release) _

/-- A press that is interrupted leaves what was dragged. -/
theorem trackMouseInsideCommitPanel_interrupted {mouseDownEvent : ScreenEvent}
    {col : Ui.RevColumn} {panel : Commit} {g : Gui κ ω} {rest : List Ui.Screen.Input}
    {e : Ui.Screen.Interrupt} {start : DragStart}
    (hstart : dragStart g.app mouseDownEvent (pressed g.app col panel) = some start)
    (hends : (holding g.inputs).2 = some (.error e, rest)) :
    trackMouseInsideCommitPanel env mouseDownEvent col panel g =
      (.error (.interrupt e),
        { pressedGui g col panel with
          drag := dragTurns env (pressedGui g col panel).app start false g.drag
            (mouseDownEvent :: (holding g.inputs).1)
          inputs := rest }) := by
  have hloop := dragLoop_eq env start false mouseDownEvent g.inputs (pressedGui g col panel)
  rw [hends] at hloop
  rw [trackMouseInsideCommitPanel_run, hstart]
  exact Program.bind_run_error hloop _

/-- A drag that is interrupted is not forgotten.  The next press in a panel, whatever has become of
the rest in between, goes on with it if the mouse was moved far enough before the interruption and
was not at the edge of the window then: as long as the mouse is never at the edge, the press included,
it drops its commits where it comes up, also where the mouse is not moved at all. -/
theorem trackMouseInsideCommitPanel_stale {mouseDownEvent : ScreenEvent} {col : Ui.RevColumn}
    {panel : Commit} {g : Gui κ ω} {rest : List Ui.Screen.Input} {e : Ui.Screen.Interrupt}
    {start : DragStart} (hfresh : g.drag = Drag.none)
    (hstart : dragStart g.app mouseDownEvent (pressed g.app col panel) = some start)
    (hends : (holding g.inputs).2 = some (.error e, rest)) :
    (trackMouseInsideCommitPanel env mouseDownEvent col panel g).1 = .error (.interrupt e) ∧
      ∀ (next : Gui κ ω) (mouseDownEvent' release : ScreenEvent) (col' : Ui.RevColumn)
        (panel' : Commit) (start' : DragStart) (rest' : List Ui.Screen.Input),
        next.drag = (trackMouseInsideCommitPanel env mouseDownEvent col panel g).2.drag →
        dragStart next.app mouseDownEvent' (pressed next.app col' panel') = some start' →
        (holding next.inputs).2 = some (.ok release, rest') →
        trackMouseInsideCommitPanel env mouseDownEvent' col' panel' next =
          resumedOutcome env (pressedGui next col' panel').app start'
            (allowed g.app ((holding g.inputs).1.getLastD mouseDownEvent) &&
              (mouseDownEvent :: (holding g.inputs).1).any (dragged mouseDownEvent))
            next.doubleClickState col' panel' (mouseDownEvent' :: (holding next.inputs).1)
            ((holding next.inputs).1.getLastD mouseDownEvent') release
            { pressedGui next col' panel' with drag := Drag.none, inputs := rest' } := by
  have hrun := trackMouseInsideCommitPanel_interrupted env hstart hends
  have hdown : start.mouseDownEvent = mouseDownEvent := (dragStart_some hstart).1
  constructor
  · rw [hrun]
  · intro next mouseDownEvent' release col' panel' start' rest' hnext hstart' hends'
    have hleft := isSome_dragTurns env (pressedGui g col panel).app start false g.drag mouseDownEvent
      (holding g.inputs).1
    rw [hfresh, hdown] at hleft
    rw [trackMouseInsideCommitPanel_ended env hstart' hends', hnext, hrun]
    dsimp only
    rw [hfresh, hleft]
    rfl

end Drag

section Examples

open HalfMove OneBranch

/-- The branch is shown, and this is to be read. -/
def shown (inputs : List Ui.Screen.Input) : Gui (Option Commit) Unit :=
  start (perform env.toEnv noFault (.resize ⟨100, 12⟩) OneBranch.app).2 inputs

/-- The column of the branch. -/
def column : Ui.RevColumn := ⟨rev branch, ⟨⟨3, 0⟩, ⟨32, 12⟩⟩, [top, root], false, false⟩

/-- The head of the branch is dragged below its root. -/
theorem released_drop :
    let g := shown [.event (ScreenEvent.move ⟨10, 8⟩ 0), .event (lift ⟨10, 8⟩)]
    (trackMouseInsideCommitPanel env (press ⟨10, 5⟩) column top g).1 =
        .ok (some ⟨.move, ⟨some (rev branch), {top}⟩, ⟨some (rev branch), none⟩⟩) ∧
      ∃ start, dragStart g.app (press ⟨10, 5⟩) (pressed g.app column top) = some start ∧
        trackMouseInsideCommitPanel env (press ⟨10, 5⟩) column top g =
          dragOutcome env (pressedGui g column top).app start none column top
            [press ⟨10, 5⟩, ScreenEvent.move ⟨10, 8⟩ 0] (ScreenEvent.move ⟨10, 8⟩ 0) (lift ⟨10, 8⟩)
            { pressedGui g column top with inputs := [] } := by
  intro g
  have hstart : (dragStart g.app (press ⟨10, 5⟩) (pressed g.app column top)).isSome = true := by
    decide +kernel
  obtain ⟨start, hstart⟩ := Option.isSome_iff_exists.mp hstart
  exact ⟨by decide +kernel, start, hstart, trackMouseInsideCommitPanel_released env rfl hstart rfl⟩

/-- The window gets another size while the head of the branch is dragged. -/
def resized : Gui (Option Commit) Unit :=
  shown [.event (ScreenEvent.move ⟨10, 8⟩ 0), .resize ⟨100, 12⟩]

/-- Then the root is clicked, and the mouse is not moved. -/
def clicked : Gui (Option Commit) Unit :=
  { (trackMouseInsideCommitPanel env (press ⟨10, 5⟩) column top resized).2 with
    inputs := [.event (lift ⟨10, 7⟩)] }

/-- The root is dropped where it is. -/
theorem stale_drop :
    (trackMouseInsideCommitPanel env (press ⟨10, 7⟩) column root clicked).1 =
        .ok (some ⟨.move, ⟨some (rev branch), {root}⟩, ⟨some (rev branch), some root⟩⟩) ∧
      ∃ start, dragStart clicked.app (press ⟨10, 7⟩) (pressed clicked.app column root) = some start ∧
        trackMouseInsideCommitPanel env (press ⟨10, 7⟩) column root clicked =
          resumedOutcome env (pressedGui clicked column root).app start true none column root
            [press ⟨10, 7⟩] (press ⟨10, 7⟩) (lift ⟨10, 7⟩)
            { pressedGui clicked column root with drag := Drag.none, inputs := [] } := by
  have hfirst : (dragStart resized.app (press ⟨10, 5⟩) (pressed resized.app column top)).isSome =
      true := by
    decide +kernel
  have hsecond : (dragStart clicked.app (press ⟨10, 7⟩)
      (pressed clicked.app column root)).isSome = true := by
    decide +kernel
  obtain ⟨start, hstart⟩ := Option.isSome_iff_exists.mp hfirst
  obtain ⟨start', hstart'⟩ := Option.isSome_iff_exists.mp hsecond
  have hdragged : (allowed resized.app (ScreenEvent.move ⟨10, 8⟩ 0) &&
      [press ⟨10, 5⟩, ScreenEvent.move ⟨10, 8⟩ 0].any (dragged (press ⟨10, 5⟩))) = true := by
    decide +kernel
  refine ⟨by decide +kernel, start', hstart', ?_⟩
  have hnext := (trackMouseInsideCommitPanel_stale env rfl hstart rfl).2 clicked (press ⟨10, 7⟩)
    (lift ⟨10, 7⟩) column root start' [] rfl hstart' rfl
  rw [← hdragged]
  exact hnext

end Examples

section Rectangle

variable (height : Commit → Int) (old : App κ ω) (mouseDownEvent : ScreenEvent)

/-- What is selected when the mouse is at `ev`. -/
def selectedAt (ev : ScreenEvent) : Ui.Selection :=
  old.selectionSelected (selectionTouched height
    (selectionRectOf mouseDownEvent.mouse.origin ev.mouse.origin) old.columns)
    mouseDownEvent.selectionShiftKeys

/-- The rectangle that is shown when the mouse was moved through some events. -/
def rectAt (selectionRect : Option Ui.Rect) (evs : List ScreenEvent) (last : ScreenEvent) :
    Option Ui.Rect :=
  if selectionRect.isSome || evs.any (dragged mouseDownEvent) then
    some (selectionRectOf mouseDownEvent.mouse.origin last.mouse.origin)
  else selectionRect

/-- The state of the user interface once the mouse was moved through some events. -/
def selecting (g : Gui κ ω) (evs : List ScreenEvent) (last : ScreenEvent) : Gui κ ω :=
  { g with
    app := { g.app with selection := selectedAt height old mouseDownEvent last }
    selectionRect := rectAt mouseDownEvent g.selectionRect evs last }

theorem rectAt_rectAt (selectionRect : Option Ui.Rect) (evs evs' : List ScreenEvent)
    (before last : ScreenEvent) :
    rectAt mouseDownEvent (rectAt mouseDownEvent selectionRect evs before) evs' last =
      rectAt mouseDownEvent selectionRect (evs ++ evs') last := by
  unfold rectAt
  cases selectionRect <;> cases hany : evs.any (dragged mouseDownEvent) <;> simp [hany]

theorem selectionRectLoop_eq (ev : ScreenEvent) (inputs : List Ui.Screen.Input) (g : Gui κ ω) :
    selectionRectLoop height old mouseDownEvent ev inputs g =
      (ended (fun _ => ()) (holding inputs).2,
        { selecting height old mouseDownEvent g (ev :: (holding inputs).1)
            ((holding inputs).1.getLastD ev) with
          inputs := leaves (holding inputs).2 }) := by
  have hturn (ev : ScreenEvent) (g : Gui κ ω) : selectRect height old mouseDownEvent ev g =
      (.ok (), selecting height old mouseDownEvent g [ev] ev) := by
    unfold selectRect selecting rectAt
    rw [List.any_cons, List.any_nil, Bool.or_false]
    rfl
  induction inputs generalizing ev g with
  | nil =>
      rw [selectionRectLoop, Program.bind_run_ok (hturn ev g), wait_run]
      rfl
  | cons input inputs ih =>
      rw [selectionRectLoop, Program.bind_run_ok (hturn ev g)]
      cases hnext : Ui.Screen.eventNext input with
      | error e =>
          rw [Program.bind_run_error (by rw [eventNext_run, hnext]), holding_error hnext]
          rfl
      | ok next =>
          rw [Program.bind_run_ok (by rw [eventNext_run, hnext]), not_held_iff]
          cases hheld : held next with
          | true =>
              rw [holding_held hnext hheld, List.getLastD_cons]
              refine (ih next _).trans ?_
              unfold selecting
              dsimp only
              rw [rectAt_rectAt, List.singleton_append]
          | false =>
              rw [holding_last hnext hheld]
              rfl

/-- The selection with a rectangle depends on where the mouse went down and on where it was last
before the loop was left, not on the way between. -/
theorem trackSelectionRect_eq (g : Gui κ ω) : trackSelectionRect height mouseDownEvent g =
    (ended (fun _ => ()) (holding g.inputs).2,
      let last := (holding g.inputs).1.getLastD mouseDownEvent
      { g with
        app := { g.app with selection := selectedAt height g.app mouseDownEvent last }
        selectionRect :=
          match (holding g.inputs).2 with
          | some (.ok _, _) => none
          | _ => rectAt mouseDownEvent g.selectionRect (mouseDownEvent :: (holding g.inputs).1) last
        inputs := leaves (holding g.inputs).2 }) := by
  have hloop := selectionRectLoop_eq height g.app mouseDownEvent mouseDownEvent g.inputs g
  unfold trackSelectionRect
  rw [Program.bind_run_ok (Program.read_run g)]
  rcases hend : (holding g.inputs).2 with _ | ⟨e | last, rest⟩
  · rw [hend] at hloop
    exact Program.bind_run_error hloop _
  · rw [hend] at hloop
    exact Program.bind_run_error hloop _
  · rw [hend] at hloop
    exact Program.bind_run_ok hloop _

end Rectangle

end Gui

end App
end Debase
