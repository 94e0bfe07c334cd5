import Debase.Ui.TextField

/-!
# Buttons

`ui/UI.h`, `ui/Screen.h`, `ui/Button.h`: what the screen reads, and what a button does with it.

A button notes where the mouse went down and came up (`_actionTriggerState`) and calls its action
once it has seen what its trigger asks for.  When the mouse goes down in it, it tracks: `track` is
a loop of its own inside the loop that delivered the event, and until the mouse comes up every
event goes to this button.
-/

namespace Debase
namespace Ui

open Library

/-! ## What the screen reads -/

/-- `MouseButtons`. -/
structure MouseButtons where
  left : Bool
  right : Bool
deriving DecidableEq

/-- An event as `eventNext` returns it: with the other bits of `bstate` that are asked for, the
time at which it was read, and what the clock is while it is handled, in milliseconds. -/
structure ScreenEvent extends Event where
  button3Released : Bool
  selectionShiftKeys : Bool
  buttonAlt : Bool
  time : Int
  now : Int
deriving DecidableEq

namespace Event

/-- The byte of Ctrl-C. -/
def keyCtrlC : Int := 3

/-- The byte of Ctrl-D. -/
def keyCtrlD : Int := 4

/-- The byte of `b`. -/
def keyB : Int := 98

/-- The byte of `c`. -/
def keyC : Int := 99

end Event

namespace ScreenEvent

variable (ev : ScreenEvent)

/-- The event is one of the mouse. -/
def isMouse : Bool := ev.type = Event.typeMouse

/-- `mouseDown(buttons)`. -/
def mouseDown (buttons : MouseButtons) : Bool :=
  ev.isMouse &&
    (buttons.left && ev.mouse.button1Pressed || buttons.right && ev.mouse.button3Pressed)

/-- `mouseUp(buttons)`. -/
def mouseUp (buttons : MouseButtons) : Bool :=
  ev.isMouse && (buttons.left && ev.mouse.button1Released || buttons.right && ev.button3Released)

/-- `SubviewConvert(dst, ev)` for a view whose origin is there. -/
def convert (origin : Point) : ScreenEvent :=
  if ev.isMouse then
    { ev with mouse.origin := ⟨ev.mouse.origin.x - origin.x, ev.mouse.origin.y - origin.y⟩ }
  else ev

@[simp] theorem isMouse_convert (origin : Point) : (ev.convert origin).isMouse = ev.isMouse := by
  unfold convert
  split <;> rfl

@[simp] theorem mouseDown_convert (origin : Point) (buttons : MouseButtons) :
    (ev.convert origin).mouseDown buttons = ev.mouseDown buttons := by
  unfold convert
  split <;> rfl

@[simp] theorem mouseUp_convert (origin : Point) (buttons : MouseButtons) :
    (ev.convert origin).mouseUp buttons = ev.mouseUp buttons := by
  unfold convert
  split <;> rfl

@[simp] theorem now_convert (origin : Point) : (ev.convert origin).now = ev.now := by
  unfold convert
  split <;> rfl

/-- The mouse moves there, with no button going down or up. -/
def move (p : Point) (now : Int) : ScreenEvent where
  type := Event.typeMouse
  mouse := ⟨p, false, false, false⟩
  button3Released := false
  selectionShiftKeys := false
  buttonAlt := false
  time := now
  now := now

/-- The right button of the mouse comes up there. -/
def release (p : Point) (now : Int) : ScreenEvent := { move p now with button3Released := true }

end ScreenEvent

namespace Screen

/-- What `wgetch` gives: a key or the mouse, or that the window has a new size. -/
inductive Input where
  | event (ev : ScreenEvent)
  | resize (size : Size)
deriving DecidableEq

/-- What `eventNext` throws. -/
inductive Interrupt where
  | windowResize (size : Size)
  | exitRequest
deriving DecidableEq

/-- `eventNext`, without a deadline. -/
def eventNext : Input → Except Interrupt ScreenEvent
  | .resize size => .error (.windowResize size)
  | .event ev =>
      if ev.type = Event.keyCtrlC ∨ ev.type = Event.keyCtrlD then .error .exitRequest else .ok ev

end Screen

/-! ## A button -/

/-- `ActionTrigger`. -/
structure ActionTrigger where
  mouseDown : Bool
  mouseUp : Bool
deriving DecidableEq

/-- `Button`, with what it asks its view for. -/
structure Button where
  frame : Rect
  hitTestInset : Edges
  visible : Bool
  interaction : Bool
  enabledWindow : Bool
  actionButtons : MouseButtons
  actionTrigger : ActionTrigger
  actionTriggerState : ActionTrigger
deriving DecidableEq

/-- What an event does to a button: whether `trackStop` is called, whether the action is, and
whether the button tracks from then on. -/
structure Handled where
  button : Button
  stops : Bool
  triggers : Bool
  tracks : Bool
deriving DecidableEq

/-- What `handleEvent` returns. -/
def Handled.handled (r : Handled) : Bool := r.triggers || r.tracks

namespace Button

variable (b : Button)

/-- `View::hitTest`. -/
def hitTest (p : Point) : Bool := Ui.hitTest ⟨⟨0, 0⟩, b.frame.size⟩ p b.hitTestInset

/-- The mouse is on the button, which is enabled. -/
def hits (ev : ScreenEvent) : Bool := b.hitTest ev.mouse.origin && b.enabledWindow

/-- `_actionTriggerState` once the event is noted. -/
def noted (ev : ScreenEvent) : ActionTrigger :=
  if b.hits ev then
    if ev.mouseDown b.actionButtons then ⟨true, false⟩
    else if ev.mouseUp b.actionButtons then { b.actionTriggerState with mouseUp := true }
    else b.actionTriggerState
  else b.actionTriggerState

/-- `(_actionTriggerState & _actionTrigger) == _actionTrigger`. -/
def triggered (state : ActionTrigger) : Bool :=
  (!b.actionTrigger.mouseDown || state.mouseDown) && (!b.actionTrigger.mouseUp || state.mouseUp)

/-- `handleEvent`.  The action `consumes` events if it has a loop of its own. -/
def handleEvent (consumes : Bool) (ev : ScreenEvent) : Handled :=
  if !ev.isMouse then ⟨b, false, false, false⟩
  else
    let state := b.noted ev
    let trigger := b.triggered state
    let up := ev.mouseUp b.actionButtons
    { button := { b with actionTriggerState := if up || trigger then ⟨false, false⟩ else state }
      stops := up
      triggers := trigger
      tracks := b.hitTest ev.mouse.origin && ev.mouseDown b.actionButtons && !(trigger && consumes) }

/-- The button as the event finds it, with its window enabled or not. -/
def withEnabled (enabled : Bool) : Button := { b with enabledWindow := enabled }

/-- The button after events that were delivered to it, each with whether it was enabled then. -/
def after (b : Button) (evs : List (Bool × ScreenEvent)) : Button :=
  evs.foldl (fun b e => ((b.withEnabled e.1).handleEvent false e.2).button) b

/-! ## When the action is called -/

/-- The mouse went down in the button, and has not come up since. -/
def Armed (b : Button) (evs : List (Bool × ScreenEvent)) : Prop :=
  ∃ before press since, evs = before ++ press :: since ∧
    (b.withEnabled press.1).hits press.2 = true ∧ press.2.mouseDown b.actionButtons = true ∧
    ∀ e ∈ press :: since, e.2.mouseUp b.actionButtons = false

/-- The event calls the action after these: where the trigger asks for the mouse to come up, it
does so in the button, and went down in it before if the trigger asks for that as well; otherwise
it goes down in the button. -/
def Clicks (b : Button) (evs : List (Bool × ScreenEvent)) (e : Bool × ScreenEvent) : Prop :=
  (b.withEnabled e.1).hits e.2 = true ∧
    if b.actionTrigger.mouseUp then
      e.2.mouseUp b.actionButtons = true ∧ e.2.mouseDown b.actionButtons = false ∧
        (b.actionTrigger.mouseDown = true → Armed b evs)
    else e.2.mouseDown b.actionButtons = true

theorem mouseDown_eq_false {ev : ScreenEvent} (h : ev.isMouse = false) (buttons : MouseButtons) :
    ev.mouseDown buttons = false := by
  rw [ScreenEvent.mouseDown, h, Bool.false_and]

theorem mouseUp_eq_false {ev : ScreenEvent} (h : ev.isMouse = false) (buttons : MouseButtons) :
    ev.mouseUp buttons = false := by
  rw [ScreenEvent.mouseUp, h, Bool.false_and]

theorem armed_concat {evs : List (Bool × ScreenEvent)} {e : Bool × ScreenEvent} :
    Armed b (evs ++ [e]) ↔ e.2.mouseUp b.actionButtons = false ∧
      ((b.withEnabled e.1).hits e.2 = true ∧ e.2.mouseDown b.actionButtons = true ∨
        Armed b evs) := by
  constructor
  · rintro ⟨before, press, since, hsplit, hhits, hdown, hheld⟩
    rcases List.eq_nil_or_concat since with rfl | ⟨since, last, rfl⟩
    · obtain ⟨rfl, hlast⟩ := List.append_inj' hsplit rfl
      cases hlast
      exact ⟨hheld e List.mem_cons_self, Or.inl ⟨hhits, hdown⟩⟩
    · rw [List.concat_eq_append, ← List.cons_append, ← List.append_assoc] at hsplit
      obtain ⟨rfl, hlast⟩ := List.append_inj' hsplit rfl
      cases hlast
      rw [List.concat_eq_append, ← List.cons_append] at hheld
      obtain ⟨hbefore, hafter⟩ := List.forall_mem_append.mp hheld
      exact ⟨hafter e List.mem_cons_self, Or.inr ⟨before, press, since, rfl, hhits, hdown, hbefore⟩⟩
  · rintro ⟨hup, ⟨hhits, hdown⟩ | ⟨before, press, since, rfl, hhits, hdown, hheld⟩⟩
    · exact ⟨evs, e, [], rfl, hhits, hdown, List.forall_mem_singleton.mpr hup⟩
    · refine ⟨before, press, since ++ [e], by rw [List.append_assoc, List.cons_append], hhits,
        hdown, ?_⟩
      rw [← List.cons_append]
      exact List.forall_mem_append.mpr ⟨hheld, List.forall_mem_singleton.mpr hup⟩

/-- What `_actionTriggerState` says of the events that were delivered. -/
structure Noted (b : Button) (evs : List (Bool × ScreenEvent)) (state : ActionTrigger) : Prop where
  up : state.mouseUp = false
  /-- With a trigger that waits for the mouse to come up, whether it is held down. -/
  down : state.mouseDown = true ↔ b.actionTrigger.mouseUp = true ∧ Armed b evs

/-- The trigger asks for something. -/
def Asks (b : Button) : Prop := b.actionTrigger ≠ ⟨false, false⟩

variable {b}

theorem triggered_iff (state : ActionTrigger) : b.triggered state = true ↔
    (b.actionTrigger.mouseUp = true → state.mouseUp = true) ∧
      (b.actionTrigger.mouseDown = true → state.mouseDown = true) := by
  unfold triggered
  cases b.actionTrigger.mouseDown <;> cases b.actionTrigger.mouseUp <;> simp [and_comm]

theorem noted_mouseUp (h : b.actionTriggerState.mouseUp = false) (ev : ScreenEvent) :
    (b.noted ev).mouseUp = true ↔ b.hits ev = true ∧ ev.mouseDown b.actionButtons = false ∧
      ev.mouseUp b.actionButtons = true := by
  unfold noted
  cases b.hits ev <;> cases ev.mouseDown b.actionButtons <;> cases ev.mouseUp b.actionButtons <;>
    simp [h]

theorem noted_mouseDown (ev : ScreenEvent) : (b.noted ev).mouseDown = true ↔
    b.hits ev = true ∧ ev.mouseDown b.actionButtons = true ∨
      b.actionTriggerState.mouseDown = true := by
  unfold noted
  cases b.hits ev <;> cases ev.mouseDown b.actionButtons <;> cases ev.mouseUp b.actionButtons <;>
    simp

/-- The button as events left it, and as the next one finds it. -/
def found (b : Button) (state : ActionTrigger) (enabled : Bool) : Button :=
  { b with actionTriggerState := state, enabledWindow := enabled }

theorem triggered_noted_iff (hasks : b.Asks) {evs : List (Bool × ScreenEvent)}
    {state : ActionTrigger} (h : Noted b evs state) (e : Bool × ScreenEvent) :
    (b.found state e.1).triggered ((b.found state e.1).noted e.2) = true ↔ Clicks b evs e := by
  have hup := noted_mouseUp (b := b.found state e.1) h.up e.2
  have hdown := noted_mouseDown (b := b.found state e.1) e.2
  rw [triggered_iff, hup, hdown]
  show (b.actionTrigger.mouseUp = true → (b.withEnabled e.1).hits e.2 = true ∧ _) ∧
    (b.actionTrigger.mouseDown = true → (b.withEnabled e.1).hits e.2 = true ∧ _ ∨
      state.mouseDown = true) ↔ _
  rw [h.down, Clicks]
  by_cases htrigger : b.actionTrigger.mouseUp = true
  · rw [if_pos htrigger]
    constructor
    · rintro ⟨hrelease, hpress⟩
      obtain ⟨hhits, hnot, hup⟩ := hrelease htrigger
      refine ⟨hhits, hup, hnot, fun hasked => ?_⟩
      rcases hpress hasked with ⟨-, hdown⟩ | ⟨-, harmed⟩
      · exact absurd hdown (Bool.eq_false_iff.mp hnot)
      · exact harmed
    · rintro ⟨hhits, hup, hnot, harmed⟩
      exact ⟨fun _ => ⟨hhits, hnot, hup⟩, fun hasked => Or.inr ⟨htrigger, harmed hasked⟩⟩
  · have hasked : b.actionTrigger.mouseDown = true := by
      by_contra hnot
      rw [Bool.not_eq_true] at hnot htrigger
      have hnone : b.actionTrigger = ⟨b.actionTrigger.mouseDown, b.actionTrigger.mouseUp⟩ := rfl
      rw [hnot, htrigger] at hnone
      exact hasks hnone
    rw [if_neg htrigger]
    constructor
    · rintro ⟨-, hpress⟩
      rcases hpress hasked with hpress | ⟨hup, -⟩
      · exact hpress
      · exact absurd hup htrigger
    · intro hpress
      exact ⟨fun hup => absurd hup htrigger, fun _ => Or.inl hpress⟩

/-- What an event leaves of `_actionTriggerState`. -/
theorem noted_concat (hasks : b.Asks) {evs : List (Bool × ScreenEvent)} {state : ActionTrigger}
    (h : Noted b evs state) (e : Bool × ScreenEvent) :
    ∃ state', (((b.found state e.1).handleEvent false e.2).button = b.found state' e.1) ∧
      Noted b (evs ++ [e]) state' := by
  unfold handleEvent
  split
  · next hmouse =>
      rw [Bool.not_eq_true'] at hmouse
      have hnodown := mouseDown_eq_false hmouse b.actionButtons
      have hnoup := mouseUp_eq_false hmouse b.actionButtons
      refine ⟨state, rfl, h.up, ?_⟩
      rw [h.down, armed_concat, hnodown, hnoup]
      simp
  · refine ⟨_, rfl, ?_⟩
    have hclicks := triggered_noted_iff hasks h e
    have hup := noted_mouseUp (b := b.found state e.1) h.up e.2
    have hdown := noted_mouseDown (b := b.found state e.1) e.2
    have hafter := triggered_iff (b := b.found state e.1) ((b.found state e.1).noted e.2)
    show Noted b _ (if (e.2.mouseUp b.actionButtons ||
      (b.found state e.1).triggered ((b.found state e.1).noted e.2)) = true then _ else _)
    rcases hrelease : e.2.mouseUp b.actionButtons with _ | _
    · -- the mouse is not released: the note stays, if the action was not called
      have hnotup : ((b.found state e.1).noted e.2).mouseUp = false := by
        rw [← Bool.not_eq_true, hup]
        rintro ⟨-, -, hyes⟩
        exact absurd hyes (Bool.eq_false_iff.mp hrelease)
      rw [Bool.false_or]
      by_cases htriggered : (b.found state e.1).triggered ((b.found state e.1).noted e.2) = true
      · rw [if_pos htriggered]
        refine ⟨rfl, ⟨fun hno => absurd hno (by decide), ?_⟩⟩
        rintro ⟨hasked, -⟩
        have hyes := (hafter.mp htriggered).1 hasked
        rw [hnotup] at hyes
        cases hyes
      · rw [if_neg htriggered]
        refine ⟨hnotup, ?_⟩
        rw [hdown, armed_concat, hrelease]
        show _ ∨ state.mouseDown = true ↔ _
        rw [h.down]
        by_cases hasked : b.actionTrigger.mouseUp = true
        · simp only [hasked, true_and]
          rfl
        · have hnot : ¬((b.withEnabled e.1).hits e.2 = true ∧
              e.2.mouseDown b.actionButtons = true) := by
            intro hpress
            refine htriggered (hclicks.mpr ⟨hpress.1, ?_⟩)
            rw [if_neg hasked]
            exact hpress.2
          constructor
          · rintro (hpress | ⟨hup, -⟩)
            · exact absurd hpress hnot
            · exact absurd hup hasked
          · rintro ⟨hup, -⟩
            exact absurd hup hasked
    · rw [Bool.true_or, if_pos rfl]
      refine ⟨rfl, ⟨fun hno => absurd hno (by decide), ?_⟩⟩
      rintro ⟨-, harmed⟩
      have hnot := (armed_concat b).mp harmed
      rw [hrelease] at hnot
      exact absurd hnot.1 (by decide)

/-- A button that nothing was delivered to yet. -/
def Fresh (b : Button) : Prop := b.actionTriggerState = ⟨false, false⟩

theorem noted_after (hasks : b.Asks) (hfresh : b.Fresh) (evs : List (Bool × ScreenEvent)) :
    ∃ state enabled, b.after evs = b.found state enabled ∧ Noted b evs state := by
  induction evs using List.reverseRecOn with
  | nil =>
      refine ⟨b.actionTriggerState, b.enabledWindow, rfl, ?_⟩
      rw [show b.actionTriggerState = _ from hfresh]
      refine ⟨rfl, ⟨fun hno => absurd hno (by decide), ?_⟩⟩
      rintro ⟨-, before, press, since, hsplit, -⟩
      exact absurd hsplit (by simp)
  | append_singleton evs e ih =>
      obtain ⟨state, enabled, hafter, hnoted⟩ := ih
      obtain ⟨state', hnext, hnoted'⟩ := noted_concat hasks hnoted e
      refine ⟨state', e.1, ?_, hnoted'⟩
      rw [after, List.foldl_append]
      show (((b.after evs).withEnabled e.1).handleEvent false e.2).button = _
      rw [hafter]
      exact hnext

/-- Whatever events were delivered to a button before, and whenever it was disabled meanwhile, an
event of the mouse calls the action exactly when it completes a click in the button. -/
theorem triggers_iff (hasks : b.Asks) (hfresh : b.Fresh) (evs : List (Bool × ScreenEvent))
    (consumes : Bool) {e : Bool × ScreenEvent} (hmouse : e.2.isMouse = true) :
    (((b.after evs).withEnabled e.1).handleEvent consumes e.2).triggers = true ↔
      Clicks b evs e := by
  obtain ⟨state, enabled, hafter, hnoted⟩ := noted_after hasks hfresh evs
  rw [hafter, ← triggered_noted_iff hasks hnoted e, handleEvent, hmouse]
  exact Iff.rfl

/-- A button that waits for the left button of the mouse to go down and come up in it. -/
def undoButton : Button where
  frame := ⟨⟨2, 1⟩, ⟨8, 3⟩⟩
  hitTestInset := ⟨0, 0, 0, 0⟩
  visible := true
  interaction := true
  enabledWindow := true
  actionButtons := ⟨true, false⟩
  actionTrigger := ⟨true, true⟩
  actionTriggerState := ⟨false, false⟩

/-- The left button of the mouse goes down there. -/
def leftDown (p : Point) (now : Int) : ScreenEvent :=
  { ScreenEvent.move p now with mouse := ⟨p, true, false, false⟩ }

/-- The left button of the mouse comes up there. -/
def leftUp (p : Point) (now : Int) : ScreenEvent :=
  { ScreenEvent.move p now with mouse := ⟨p, false, false, true⟩ }

/-- It comes up in the button after it went down there, was on another view meanwhile, and the
button was disabled for a while. -/
theorem triggers_iff_release :
    let evs := [(true, leftDown ⟨3, 1⟩ 0), (false, ScreenEvent.move ⟨20, 9⟩ 1)]
    let e := (true, leftUp ⟨4, 2⟩ 2)
    ((undoButton.after evs).withEnabled e.1 |>.handleEvent false e.2).triggers = true ∧
      (((undoButton.after evs).withEnabled e.1 |>.handleEvent false e.2).triggers = true ↔
        Clicks undoButton evs e) := by
  intro evs e
  refine ⟨by decide, ?_⟩
  exact triggers_iff (show undoButton.Asks by unfold Asks; decide)
    (show undoButton.Fresh from rfl) evs false (e := e) rfl

end Button

end Ui
end Debase
