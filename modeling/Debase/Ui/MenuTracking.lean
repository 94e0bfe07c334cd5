import Debase.Ui.Button

/-!
# Choosing from a menu

`ui/Menu.h`, `ui/View.h`: an open menu tracks, so every event goes to it: to its buttons, the last
one first, and to the menu itself if none of them handles the event.  A button in which the mouse
goes down tracks in turn, inside the loop of the menu.  The loops are levels here: `inner` holds,
for each loop of the button that tracks, whether it is to stop.

An action of a button is the number of the button in `chosen`.
-/

namespace Debase
namespace Ui

open Library

/-! ## Where a point is -/

theorem hitTest_iff {r : Rect} {p : Point} {e : Edges} : hitTest r p e = true ↔
    (r.l + e.l ≤ p.x ∧ p.x < r.r - e.r) ∧ r.t + e.t ≤ p.y ∧ p.y < r.b - e.b := by
  unfold hitTest intersection inset Rect.l Rect.r Rect.t Rect.b
  dsimp only
  split
  · next hout =>
      simp only [empty]
      refine iff_of_false (by decide) ?_
      omega
  · next hin =>
      simp only [empty, Bool.not_eq_true', Bool.or_eq_false_iff, decide_eq_false_iff_not]
      omega

namespace Menu

/-- `bounds()`. -/
def bounds (size : Size) : Rect := ⟨⟨0, 0⟩, size⟩

/-- The button is hit at a point of the menu. -/
def Placed.hit (button : Placed) (p : Point) : Bool :=
  hitTest ⟨⟨0, 0⟩, button.frame.size⟩ ⟨p.x - button.frame.l, p.y - button.frame.t⟩
    button.hitTestInset

/-- Button `i` is shown, and is hit at the point. -/
def HitAt (placed : List Placed) (p : Point) (i : Nat) : Prop :=
  ∃ button, placed[i]? = some button ∧ button.visible = true ∧ button.hit p = true

/-- The first row that belongs to a button that is laid out from a row on: the first button has
the border as well. -/
def firstRow (y : Int) (first : Bool) : Int := if first then y - borderSize else y + separatorHeight

/-! ## Every point of a menu is a point of one button -/

section Hit

variable {x ymax width : Int} {p : Point}

/-- The rows and columns that belong to a button: the separator or the border below it, and the
border on both sides. -/
theorem hit_placed_iff (button : Size) (y : Int) (first shows : Bool) :
    Placed.hit ⟨⟨⟨x, y + gap first⟩, button⟩,
        ⟨-(borderSize + insetX), -(borderSize + insetX), if first then -1 else 0, -1⟩, shows⟩ p =
        true ↔
      (x - (borderSize + insetX) ≤ p.x ∧ p.x < x + button.x + (borderSize + insetX)) ∧
        firstRow y first ≤ p.y ∧ p.y ≤ y + gap first + button.y := by
  unfold Placed.hit
  rw [hitTest_iff]
  unfold Rect.l Rect.r Rect.t Rect.b firstRow gap borderSize insetX separatorHeight
  cases first <;> simp <;> omega

/-- A button that is hit does not begin below the point. -/
theorem firstRow_le_of_hitAt (hx : 0 ≤ x) {buttons : List Size} (htall : Tall buttons) {y : Int}
    (hy : 0 ≤ y) {first shows : Bool} {i : Nat}
    (h : HitAt (layoutLoop x ymax buttons y first shows) p i) : firstRow y first ≤ p.y := by
  induction buttons generalizing y first shows i with
  | nil =>
      obtain ⟨button, hget, -⟩ := h
      cases hget
  | cons button buttons ih =>
      obtain ⟨hbutton, hrest⟩ := List.forall_mem_cons.mp htall
      have hgap := gap_nonneg first
      have horigin : setOrigin ⟨x, y + gap first⟩ = ⟨x, y + gap first⟩ := by
        rw [setOrigin, Int.max_eq_right hx, Int.max_eq_right (show (0 : Int) ≤ y + gap first by omega)]
      obtain ⟨placed, hget, hvisible, hhit⟩ := h
      rw [layoutLoop, horigin] at hget
      rcases i with _ | i
      · cases hget
        exact ((hit_placed_iff button y first _).mp hhit).2.1
      · have hbelow := ih hrest (show 0 ≤ y + gap first + button.y by omega)
          ⟨placed, hget, hvisible, hhit⟩
        unfold firstRow gap borderSize separatorHeight at *
        cases first <;> simp at * <;> omega

/-- A point between the first row and the row below the last button that is shown. -/
theorem existsUnique_hitAt (hx : 0 ≤ x) {buttons : List Size} (htall : Tall buttons)
    (hwidth : ∀ button ∈ buttons, button.x = width) {y : Int} (hy : 0 ≤ y) {first : Bool}
    (hcolumn : x - (borderSize + insetX) ≤ p.x ∧ p.x < x + width + (borderSize + insetX))
    (hfirst : firstRow y first ≤ p.y)
    (hlast : ∃ last ∈ (shown (layoutLoop x ymax buttons y first true)).getLast?,
      p.y ≤ last.frame.b) :
    ∃! i, HitAt (layoutLoop x ymax buttons y first true) p i := by
  induction buttons generalizing y first with
  | nil =>
      obtain ⟨last, hno, -⟩ := hlast
      cases hno
  | cons button buttons ih =>
      obtain ⟨hbutton, hrest⟩ := List.forall_mem_cons.mp htall
      obtain ⟨hsame, hwidths⟩ := List.forall_mem_cons.mp hwidth
      have hgap := gap_nonneg first
      have hbelow : 0 ≤ y + gap first + button.y := by omega
      have horigin : setOrigin ⟨x, y + gap first⟩ = ⟨x, y + gap first⟩ := by
        rw [setOrigin, Int.max_eq_right hx, Int.max_eq_right (show (0 : Int) ≤ y + gap first by omega)]
      rw [shown_layoutLoop buttons hy, Int.max_eq_right hx] at hlast
      split at hlast
      · next hfits =>
          rw [layoutLoop, horigin, Bool.true_and, decide_eq_true hfits]
          have hhere := hit_placed_iff (x := x) (p := p) button y first true
          rw [hsame] at hhere
          rcases Int.lt_or_le (y + gap first + button.y) p.y with hpast | hhead
          · -- the point belongs to a button below the first
            obtain ⟨last, hlast, hle⟩ := hlast
            have hnext : ∃ last ∈ (shown (layoutLoop x ymax buttons
                (y + gap first + button.y) false true)).getLast?, p.y ≤ last.frame.b := by
              rw [List.getLast?_cons] at hlast
              rcases hend : (shown (layoutLoop x ymax buttons (y + gap first + button.y) false
                true)).getLast? with _ | l
              · rw [hend] at hlast
                cases hlast
                exact absurd hle (Int.not_le.mpr hpast)
              · rw [hend] at hlast
                cases hlast
                exact ⟨l, rfl, hle⟩
            have hrow : firstRow (y + gap first + button.y) false ≤ p.y := by
              show _ + separatorHeight ≤ p.y
              rw [separatorHeight]
              omega
            obtain ⟨i, hi, hunique⟩ := ih hrest hwidths hbelow hrow hnext
            refine ⟨i + 1, hi, fun j hj => ?_⟩
            rcases j with _ | j
            · obtain ⟨placed, hget, -, hhit⟩ := hj
              cases hget
              exact absurd (hhere.mp hhit).2.2 (Int.not_le.mpr hpast)
            · rw [hunique j hj]
          · refine ⟨0, ⟨_, rfl, rfl, hhere.mpr ⟨hcolumn, hfirst, hhead⟩⟩, fun j hj => ?_⟩
            rcases j with _ | j
            · rfl
            · have hrow := firstRow_le_of_hitAt hx hrest hbelow (p := p) (i := j) hj
              change _ + separatorHeight ≤ p.y at hrow
              rw [separatorHeight] at hrow
              omega
      · obtain ⟨last, hno, -⟩ := hlast
        cases hno

theorem length_layoutLoop (x ymax : Int) (buttons : List Size) (y : Int) (first shows : Bool) :
    (layoutLoop x ymax buttons y first shows).length = buttons.length := by
  induction buttons generalizing y first shows with
  | nil => rfl
  | cons button buttons ih => rw [layoutLoop, List.length_cons, List.length_cons, ih]

/-- All buttons are as wide as the first, which sets the width of the menu. -/
def Even (width : Int) (buttons : List Size) : Prop := 0 ≤ width ∧ ∀ button ∈ buttons, button.x = width

/-- In a menu of its own size that shows a button, every point, also one on a separator or on the
border, belongs to exactly one of the buttons that are shown. -/
theorem layout_hitAt (constraint : Size) {buttons : List Size} (htall : Tall buttons)
    (heven : Even width buttons) (hshown : 0 < fitting constraint buttons)
    (hp : hitTest (bounds (ownSize constraint buttons)) p ⟨0, 0, 0, 0⟩ = true) :
    ∃! i, HitAt (layout (ownSize constraint buttons) buttons).2 p i := by
  have hheight := sizeLoop_ge constraint.y htall padding.y (constraint.y - padding.y) true
  have hsize : (ownSize constraint buttons).y = (sizeIntrinsic constraint buttons).y :=
    Int.max_eq_right (Int.le_trans (by decide) hheight)
  obtain ⟨first, rest, rfl⟩ : ∃ first rest, buttons = first :: rest := by
    rcases buttons with _ | ⟨first, rest⟩
    · exact absurd hshown (Nat.lt_irrefl 0)
    · exact ⟨first, rest, rfl⟩
  have hwidth : (ownSize constraint (first :: rest)).x = width + padding.x := by
    show max 0 (first.x + padding.x) = _
    rw [heven.2 first List.mem_cons_self]
    exact Int.max_eq_right (Int.add_nonneg heven.1 (by decide))
  have hlast := (shown_last constraint.y htall (borderSize + insetX)
    (show borderSize ≤ padding.y by decide) (constraint.y - padding.y) true)
  obtain ⟨⟨hleft, hright⟩, htop, hbottom⟩ := hitTest_iff.mp hp
  change 0 + 0 ≤ p.x at hleft
  change p.x < 0 + (ownSize constraint (first :: rest)).x - 0 at hright
  change 0 + 0 ≤ p.y at htop
  change p.y < 0 + (ownSize constraint (first :: rest)).y - 0 at hbottom
  rw [hwidth] at hright
  have hpadding : padding.x = 4 := rfl
  have hinset : borderSize + insetX = 2 := rfl
  have hborder : borderSize = 1 := rfl
  refine existsUnique_hitAt (by decide) htall heven.2 (by decide) ?_ ?_ ?_
  · omega
  · show borderSize - borderSize ≤ p.y
    omega
  · rcases hend : (shown (layoutLoop (borderSize + insetX)
      ((ownSize constraint (first :: rest)).y - borderSize) (first :: rest) borderSize true
        true)).getLast? with _ | last
    · -- the first button is shown
      have hvisible := layoutLoop_visible constraint.y htall (borderSize + insetX) padding.y
        (constraint.y - padding.y) true
      rw [List.getLast?_eq_none_iff, hsize] at hend
      have hnone := List.filter_eq_nil_iff.mp hend
      have hmem : true ∈ _ := hvisible ▸
        List.mem_append_left _ (List.mem_replicate.mpr ⟨Nat.ne_of_gt hshown, rfl⟩)
      obtain ⟨button, hbutton, hyes⟩ := List.mem_map.mp hmem
      exact absurd hyes (hnone button hbutton)
    · refine ⟨last, rfl, ?_⟩
      rw [hsize] at hend
      have hb := hlast.2 last hend
      have hsizeLoop : (sizeIntrinsic constraint (first :: rest)).y = (sizeLoop constraint.y
        (first :: rest) padding.y (constraint.y - padding.y) true).1 := rfl
      omega

end Hit

/-! ## The loop of a menu -/

/-- `_ActivateDuration`, in milliseconds. -/
def activateDuration : Int := 150

/-- `_StayOpenExpiration`, in milliseconds. -/
def stayOpenExpiration : Int := 300

/-- `_trackState`. -/
structure TrackState where
  startEvent : ScreenEvent
  stayOpen : Bool
  active : Bool
deriving DecidableEq

/-- A menu that tracks: where it is on the screen, its buttons, the loops of the button that
tracks, and the buttons whose actions were called, the last one first. -/
structure Tracking where
  originScreen : Point
  size : Size
  buttons : List Button
  trackState : TrackState
  inner : Option (Nat × List Bool)
  trackStop : Bool
  chosen : List Nat
deriving DecidableEq

/-- A button of a menu, once it is laid out and `track` has switched it off. -/
def menuButton (placed : Placed) (enabled : Bool) : Button where
  frame := placed.frame
  hitTestInset := placed.hitTestInset
  visible := placed.visible
  interaction := false
  enabledWindow := enabled
  actionButtons := ⟨true, true⟩
  actionTrigger := ⟨false, true⟩
  actionTriggerState := ⟨false, false⟩

/-- `track` before its loop, for buttons that are enabled or not. -/
def opened (originScreen : Point) (size : Size) (buttons : List (Size × Bool))
    (startEvent : ScreenEvent) : Tracking where
  originScreen := originScreen
  size := size
  buttons := (layout size (buttons.map Prod.fst)).2.zipWith menuButton (buttons.map Prod.snd)
  trackState := ⟨startEvent, false, false⟩
  inner := none
  trackStop := false
  chosen := []

/-- The loop of `View::handleEvent` over the buttons, the last one first: the button that handled
the event, if one did. -/
def offer (ev : ScreenEvent) : List Button → List Button × Option (Nat × Handled)
  | [] => ([], none)
  | b :: bs =>
      match offer ev bs with
      | (bs, some (i, r)) => (b :: bs, some (i + 1, r))
      | (bs, none) =>
          if b.visible && b.interaction then
            let r := b.handleEvent false (ev.convert b.frame.origin)
            (r.button :: bs, if r.handled then some (0, r) else none)
          else (b :: bs, none)

namespace Tracking

variable (s : Tracking)

/-- `dismiss`. -/
def dismiss : Tracking := { s with trackStop := true }

/-- The action of a button of a menu: it dismisses the menu, and calls the action the button had
before. -/
def act (i : Nat) : Tracking := { s.dismiss with chosen := i :: s.chosen }

/-- How long the menu has been open. -/
def duration (ev : ScreenEvent) : Int := ev.now - s.trackState.startEvent.time

/-- The event, which is converted to the menu, and the first event, which is not, are at different
points. -/
def moved (ev : ScreenEvent) : Bool :=
  ev.mouse.origin.x - s.trackState.startEvent.mouse.origin.x ≠ 0 ||
    ev.mouse.origin.y - s.trackState.startEvent.mouse.origin.y ≠ 0

/-- The buttons are to receive events from now on. -/
def wakes (ev : ScreenEvent) : Bool :=
  ev.isMouse && activateDuration ≤ s.duration ev && s.moved ev

/-- Switch the buttons on. -/
def activate : Tracking :=
  { s with
    trackState := { s.trackState with active := true }
    buttons := s.buttons.map fun b => { b with interaction := true } }

/-- `Menu::handleEvent` for the mouse. -/
def handleMouse (ev : ScreenEvent) : Tracking :=
  let inside := hitTest (bounds s.size) ev.mouse.origin ⟨0, 0, 0, 0⟩
  if ev.mouseDown ⟨true, false⟩ && !inside then s.dismiss
  else if ev.mouseUp ⟨true, true⟩ then
    if !s.trackState.stayOpen && stayOpenExpiration ≤ s.duration ev ||
        s.trackState.stayOpen && !inside then
      s.dismiss
    else { s with trackState := { s.trackState with stayOpen := true } }
  else s

/-- `Menu::handleEvent`, for an event that is converted to the menu. -/
def handleMenuEvent (ev : ScreenEvent) : Tracking :=
  let s := if s.wakes ev && !s.trackState.active then s.activate else s
  if ev.isMouse then s.handleMouse ev
  else if ev.type = Event.keyEscape then s.dismiss
  else s

/-- An event in the loop of the menu. -/
def handleOuter (ev : ScreenEvent) : Tracking :=
  let ev := ev.convert s.originScreen
  match offer ev s.buttons with
  | (buttons, none) => { s with buttons := buttons }.handleMenuEvent ev
  | (buttons, some (i, r)) =>
      let s := { s with buttons := buttons }
      let s := if r.triggers then s.act i else s
      if r.tracks then { s with inner := some (i, [false]) } else s

/-- The loops of a button after an event: the innermost one may be stopped, a new one may begin
inside it, and otherwise those that are to stop end. -/
def levelsAfter (r : Handled) : List Bool → List Bool
  | [] => []
  | stop :: levels =>
      if r.tracks then false :: (r.stops || stop) :: levels
      else ((r.stops || stop) :: levels).dropWhile id

/-- An event in a loop of a button. -/
def handleInner (i : Nat) (levels : List Bool) (ev : ScreenEvent) : Tracking :=
  match s.buttons[i]? with
  | none => s
  | some b =>
      if b.visible && b.interaction then
        let r := b.handleEvent false ((ev.convert s.originScreen).convert b.frame.origin)
        let s := { s with buttons := s.buttons.set i r.button }
        let s := if r.triggers then s.act i else s
        let levels := levelsAfter r levels
        { s with inner := if levels = [] then none else some (i, levels) }
      else s

/-- An event in the innermost loop. -/
def handle (ev : ScreenEvent) : Tracking :=
  match s.inner with
  | none => s.handleOuter ev
  | some (i, levels) => s.handleInner i levels ev

end Tracking

/-- How `track` ends: it returns, or it throws, or more events are needed. -/
inductive TrackEnd where
  | returned (s : Tracking) (rest : List Screen.Input)
  | threw (e : Screen.Interrupt) (rest : List Screen.Input)
  | waiting (s : Tracking)
deriving DecidableEq

/-- The loop of `track`. -/
def track (s : Tracking) : List Screen.Input → TrackEnd
  | [] => .waiting s
  | input :: rest =>
      match Screen.eventNext input with
      | .error e => .threw e rest
      | .ok ev =>
          let s := s.handle ev
          if s.inner.isNone && s.trackStop then .returned s rest else track s rest

/-! ## What is chosen -/

/-- The button as the menu was opened with it. -/
def plain (b : Button) : Button :=
  { b with interaction := false, actionTriggerState := ⟨false, false⟩ }

/-- What holds of a button of a menu between events. -/
structure Resting (b : Button) : Prop where
  buttons : b.actionButtons = ⟨true, true⟩
  trigger : b.actionTrigger = ⟨false, true⟩
  up : b.actionTriggerState.mouseUp = false

/-- The mouse comes up in a button that is enabled. -/
def Released (b : Button) (ev : ScreenEvent) : Prop :=
  b.hits ev = true ∧ ev.mouseDown ⟨true, true⟩ = false ∧ ev.mouseUp ⟨true, true⟩ = true

section Handled

variable {b : Button} (h : Resting b) (ev : ScreenEvent)
include h

theorem handleEvent_triggers : (b.handleEvent false ev).triggers = true ↔ Released b ev := by
  unfold Button.handleEvent
  split
  · next hmouse =>
      rw [Bool.not_eq_true'] at hmouse
      refine iff_of_false Bool.false_ne_true ?_
      rintro ⟨-, -, hup⟩
      rw [Button.mouseUp_eq_false hmouse] at hup
      cases hup
  · show b.triggered (b.noted ev) = true ↔ _
    rw [Button.triggered_iff, Button.noted_mouseUp h.up, h.trigger, h.buttons]
    simp [Released]

theorem handleEvent_button : plain (b.handleEvent false ev).button = plain b ∧
    Resting (b.handleEvent false ev).button ∧
    (b.handleEvent false ev).button.interaction = b.interaction := by
  unfold Button.handleEvent
  split
  · exact ⟨rfl, h, rfl⟩
  · refine ⟨rfl, ⟨h.buttons, h.trigger, ?_⟩, rfl⟩
    show (if _ then (⟨false, false⟩ : ActionTrigger) else b.noted ev).mouseUp = false
    split
    · rfl
    · next hnot =>
        rw [Bool.not_eq_true, Bool.or_eq_false_iff] at hnot
        rw [← Bool.not_eq_true, Button.noted_mouseUp h.up]
        rintro ⟨-, -, hup⟩
        rw [hnot.1] at hup
        cases hup

end Handled

/-- `offer` changes what each button noted, and finds the button that handled the event among
those that are shown and switched on. -/
theorem offer_spec (ev : ScreenEvent) {buttons : List Button} (h : ∀ b ∈ buttons, Resting b) :
    (offer ev buttons).1.map plain = buttons.map plain ∧
      (∀ b ∈ (offer ev buttons).1, Resting b) ∧
      (offer ev buttons).1.map Button.interaction = buttons.map Button.interaction ∧
      ∀ i r, (offer ev buttons).2 = some (i, r) →
        ∃ b, buttons[i]? = some b ∧ (b.visible && b.interaction) = true ∧
          r = b.handleEvent false (ev.convert b.frame.origin) := by
  induction buttons with
  | nil => exact ⟨rfl, h, rfl, fun i r hno => by cases hno⟩
  | cons b bs ih =>
      obtain ⟨hb, hbs⟩ := List.forall_mem_cons.mp h
      obtain ⟨hplain, hresting, hinteraction, hfound⟩ := ih hbs
      rcases hrest : offer ev bs with ⟨bs', _ | ⟨i, r⟩⟩
      · rw [hrest] at hplain hresting hinteraction
        rw [offer, hrest]
        dsimp only at hplain hresting hinteraction ⊢
        split
        · next hshown =>
            obtain ⟨hsame, hrests, hon⟩ := handleEvent_button hb (ev.convert b.frame.origin)
            refine ⟨?_, List.forall_mem_cons.mpr ⟨hrests, hresting⟩, ?_, ?_⟩
            · rw [List.map_cons, List.map_cons, hsame, hplain]
            · rw [List.map_cons, List.map_cons, hon, hinteraction]
            · intro i r hsome
              split at hsome
              · cases hsome
                exact ⟨b, rfl, hshown, rfl⟩
              · cases hsome
        · refine ⟨?_, List.forall_mem_cons.mpr ⟨hb, hresting⟩, ?_, fun i r hno => by cases hno⟩
          · rw [List.map_cons, List.map_cons, hplain]
          · rw [List.map_cons, List.map_cons, hinteraction]
      · rw [hrest] at hplain hresting hinteraction hfound
        rw [offer, hrest]
        dsimp only at hplain hresting hinteraction hfound ⊢
        refine ⟨?_, List.forall_mem_cons.mpr ⟨hb, hresting⟩, ?_, ?_⟩
        · rw [List.map_cons, List.map_cons, hplain]
        · rw [List.map_cons, List.map_cons, hinteraction]
        · intro j r' hsome
          cases hsome
          exact hfound i r rfl

section Release

variable {ev : ScreenEvent} (hdown : ev.mouseDown ⟨true, true⟩ = false)
include hdown

theorem handleEvent_tracks {b : Button} (h : Resting b) :
    (b.handleEvent false (ev.convert b.frame.origin)).tracks = false := by
  unfold Button.handleEvent
  split
  · rfl
  · dsimp only
    rw [h.buttons, ScreenEvent.mouseDown_convert, hdown, Bool.and_false, Bool.false_and]

/-- A button handles an event in which the mouse goes down nowhere if the mouse comes up in it. -/
theorem handled_iff {b : Button} (h : Resting b) :
    (b.handleEvent false (ev.convert b.frame.origin)).handled = true ↔
      Released b (ev.convert b.frame.origin) := by
  rw [Handled.handled, handleEvent_tracks hdown h, Bool.or_false, handleEvent_triggers h]

theorem offer_eq_none {buttons : List Button} (h : ∀ b ∈ buttons, Resting b)
    (hnone : ∀ b ∈ buttons, b.visible = true → ¬Released b (ev.convert b.frame.origin)) :
    (offer ev buttons).2 = none := by
  induction buttons with
  | nil => rfl
  | cons b bs ih =>
      obtain ⟨hb, hbs⟩ := List.forall_mem_cons.mp h
      obtain ⟨hhere, hrest⟩ := List.forall_mem_cons.mp hnone
      have hbelow := ih hbs hrest
      rcases hoffer : offer ev bs with ⟨bs', res⟩
      rw [hoffer] at hbelow
      obtain rfl : res = none := hbelow
      rw [offer, hoffer]
      dsimp only
      split
      · next hshown =>
          refine if_neg ?_
          rw [handled_iff hdown hb]
          exact hhere (Bool.and_eq_true_iff.mp hshown).1
      · rfl

/-- The last button in which the mouse comes up is the one that handles the event. -/
theorem offer_eq_some {buttons : List Button} (h : ∀ b ∈ buttons, Resting b) {i : Nat} {b : Button}
    (hget : buttons[i]? = some b) (hshown : (b.visible && b.interaction) = true)
    (hreleased : Released b (ev.convert b.frame.origin))
    (hlast : ∀ j b', i < j → buttons[j]? = some b' → b'.visible = true →
      ¬Released b' (ev.convert b'.frame.origin)) :
    (offer ev buttons).2 = some (i, b.handleEvent false (ev.convert b.frame.origin)) := by
  induction buttons generalizing i with
  | nil => cases hget
  | cons first bs ih =>
      obtain ⟨hfirst, hbs⟩ := List.forall_mem_cons.mp h
      rcases i with _ | i
      · cases hget
        have hbelow : (offer ev bs).2 = none := by
          refine offer_eq_none hdown hbs fun b' hb' => ?_
          obtain ⟨j, hj⟩ := List.getElem?_of_mem hb'
          exact hlast (j + 1) b' (Nat.succ_pos j) hj
        rcases hoffer : offer ev bs with ⟨bs', res⟩
        rw [hoffer] at hbelow
        obtain rfl : res = none := hbelow
        rw [offer, hoffer]
        dsimp only
        rw [if_pos hshown]
        exact if_pos ((handled_iff hdown hfirst).mpr hreleased)
      · have hbelow := ih hbs hget fun j b' hlt => hlast (j + 1) b' (Nat.succ_lt_succ hlt)
        rcases hoffer : offer ev bs with ⟨bs', res⟩
        rw [hoffer] at hbelow
        obtain rfl : res = _ := hbelow
        rw [offer, hoffer]

end Release

/-- Before some of the events ended a press of the mouse in a button, an earlier one had switched
the buttons on: it came late enough after the menu was opened, and from another point. -/
def Choice (s₀ : Tracking) (evs : List ScreenEvent) (i : Nat) : Prop :=
  ∃ before wake between release after,
    evs = before ++ wake :: between ++ release :: after ∧
      s₀.wakes (wake.convert s₀.originScreen) = true ∧
      ∃ b, s₀.buttons[i]? = some b ∧ b.visible = true ∧
        Released b ((release.convert s₀.originScreen).convert b.frame.origin)

/-- What holds of a menu that was opened as `s₀`, after events. -/
structure Sound (s₀ : Tracking) (evs : List ScreenEvent) (s : Tracking) : Prop where
  origin : s.originScreen = s₀.originScreen
  size : s.size = s₀.size
  start : s.trackState.startEvent = s₀.trackState.startEvent
  plain : s.buttons.map plain = s₀.buttons
  resting : ∀ b ∈ s.buttons, Resting b
  /-- The buttons are switched on by an event, all at once. -/
  woken : (∃ b ∈ s.buttons, b.interaction = true) →
    ∃ wake ∈ evs, s₀.wakes (wake.convert s₀.originScreen) = true
  active : s.trackState.active = true → ∀ b ∈ s.buttons, b.interaction = true
  /-- What was chosen was chosen by a release, always of the same button. -/
  chosen : ∀ i ∈ s.chosen, Choice s₀ evs i
  single : s.chosen ≠ [] → s.trackStop = true ∧
    ∃ i, (∀ j ∈ s.chosen, j = i) ∧ ∀ k levels, s.inner = some (k, levels) → k = i

/-- The loop goes on. -/
def Tracking.Goes (s : Tracking) : Prop := (s.inner.isNone && s.trackStop) = false

section Sound

variable {s₀ s : Tracking} {evs : List ScreenEvent}

theorem Choice.concat {i : Nat} (h : Choice s₀ evs i) (ev : ScreenEvent) :
    Choice s₀ (evs ++ [ev]) i := by
  obtain ⟨before, wake, between, release, after, rfl, hwakes, hreleased⟩ := h
  refine ⟨before, wake, between, release, after ++ [ev], ?_, hwakes, hreleased⟩
  simp

/-- A release in a button that is shown and switched on chooses it. -/
theorem Sound.choice (h : Sound s₀ evs s) {i : Nat} {b : Button} (hget : s.buttons[i]? = some b)
    (hshown : (b.visible && b.interaction) = true) {ev : ScreenEvent}
    (hreleased : Released b ((ev.convert s.originScreen).convert b.frame.origin)) :
    Choice s₀ (evs ++ [ev]) i := by
  obtain ⟨hvisible, hon⟩ := Bool.and_eq_true_iff.mp hshown
  obtain ⟨wake, hwake, hwakes⟩ := h.woken ⟨b, List.mem_of_getElem? hget, hon⟩
  obtain ⟨before, between, rfl⟩ := List.append_of_mem hwake
  have hplain : s₀.buttons[i]? = some (Menu.plain b) := by
    rw [← h.plain, List.getElem?_map, hget]
    rfl
  rw [h.origin] at hreleased
  exact ⟨before, wake, between, ev, [], rfl, hwakes, _, hplain, hvisible, hreleased⟩

/-- An event that changes no more than what the buttons noted, and calls the action of one button
at most. -/
theorem Sound.offered (h : Sound s₀ evs s) (ev : ScreenEvent) {buttons : List Button}
    (hplain : buttons.map Menu.plain = s.buttons.map Menu.plain)
    (hresting : ∀ b ∈ buttons, Resting b)
    (hon : buttons.map Button.interaction = s.buttons.map Button.interaction) :
    Sound s₀ (evs ++ [ev]) { s with buttons := buttons } := by
  refine ⟨h.origin, h.size, h.start, hplain.trans h.plain, hresting, ?_, ?_,
    fun i hi => (h.chosen i hi).concat ev, h.single⟩
  · rintro ⟨b, hb, hinteraction⟩
    have hmem : true ∈ s.buttons.map Button.interaction := by
      rw [← hon]
      exact List.mem_map.mpr ⟨b, hb, hinteraction⟩
    obtain ⟨wake, hwake, hwakes⟩ := h.woken (List.mem_map.mp hmem)
    exact ⟨wake, List.mem_append_left _ hwake, hwakes⟩
  · intro hactive b hb
    have hmem : b.interaction ∈ s.buttons.map Button.interaction := by
      rw [← hon]
      exact List.mem_map_of_mem hb
    obtain ⟨b', hb', heq⟩ := List.mem_map.mp hmem
    rw [← heq]
    exact h.active hactive b' hb'

theorem Sound.dismiss (h : Sound s₀ evs s) : Sound s₀ evs s.dismiss :=
  ⟨h.origin, h.size, h.start, h.plain, h.resting, h.woken, h.active, h.chosen,
    fun hsome => ⟨rfl, (h.single hsome).2⟩⟩

/-- The action of a button is called: the only one that tracks, and the only one that was chosen
before. -/
theorem Sound.act (h : Sound s₀ evs s) {i : Nat} (hchoice : Choice s₀ evs i)
    (hchosen : ∀ j ∈ s.chosen, j = i) (hinner : ∀ k levels, s.inner = some (k, levels) → k = i) :
    Sound s₀ evs (s.act i) :=
  ⟨h.origin, h.size, h.start, h.plain, h.resting, h.woken, h.active,
    List.forall_mem_cons.mpr ⟨hchoice, h.chosen⟩,
    fun _ => ⟨rfl, i, List.forall_mem_cons.mpr ⟨rfl, hchosen⟩, hinner⟩⟩

theorem Sound.tracks (h : Sound s₀ evs s) {i : Nat} (hchosen : ∀ j ∈ s.chosen, j = i)
    {inner : Option (Nat × List Bool)} (hinner : ∀ k levels, inner = some (k, levels) → k = i) :
    Sound s₀ evs { s with inner := inner } :=
  ⟨h.origin, h.size, h.start, h.plain, h.resting, h.woken, h.active, h.chosen,
    fun hsome => ⟨(h.single hsome).1, i, hchosen, hinner⟩⟩

theorem Sound.activate {ev : ScreenEvent} (h : Sound s₀ evs s) (hmem : ev ∈ evs)
    (hwakes : s.wakes (ev.convert s.originScreen) = true) : Sound s₀ evs s.activate := by
  refine ⟨h.origin, h.size, h.start, ?_, ?_, fun _ => ⟨ev, hmem, ?_⟩, fun _ => ?_, h.chosen,
    h.single⟩
  · rw [← h.plain]
    exact List.map_map
  · intro b hb
    obtain ⟨button, hbutton, rfl⟩ := List.mem_map.mp hb
    obtain ⟨hbuttons, htrigger, hup⟩ := h.resting button hbutton
    exact ⟨hbuttons, htrigger, hup⟩
  · rw [Tracking.wakes, Tracking.duration, Tracking.moved, h.start, h.origin] at hwakes
    exact hwakes
  · intro b hb
    obtain ⟨b, hb, rfl⟩ := List.mem_map.mp hb
    rfl

theorem Sound.handleMouse (h : Sound s₀ evs s) (ev : ScreenEvent) :
    Sound s₀ evs (s.handleMouse ev) := by
  unfold Tracking.handleMouse
  dsimp only
  split
  · exact h.dismiss
  · split
    · split
      · exact h.dismiss
      · obtain ⟨horigin, hsize, hstart, hplain, hresting, hwoken, hactive, hchosen, hsingle⟩ := h
        exact ⟨horigin, hsize, hstart, hplain, hresting, hwoken, hactive, hchosen, hsingle⟩
    · exact h

/-- What the menu does with an event that no button handled. -/
theorem Sound.handleMenuEvent {ev : ScreenEvent} (h : Sound s₀ evs s) (hmem : ev ∈ evs) :
    Sound s₀ evs (s.handleMenuEvent (ev.convert s.originScreen)) := by
  have hawake : Sound s₀ evs (if s.wakes (ev.convert s.originScreen) && !s.trackState.active then
      s.activate else s) := by
    split
    · next hwakes => exact h.activate hmem (Bool.and_eq_true_iff.mp hwakes).1
    · exact h
  unfold Tracking.handleMenuEvent
  extract_lets awake
  split
  · exact hawake.handleMouse _
  · split
    · exact hawake.dismiss
    · exact hawake

theorem Sound.chosen_eq_nil (h : Sound s₀ evs s) (hgoes : s.Goes) (hinner : s.inner = none) :
    s.chosen = [] := by
  by_contra hsome
  rw [Tracking.Goes, hinner, (h.single hsome).1] at hgoes
  cases hgoes

theorem Sound.handleOuter (h : Sound s₀ evs s) (hgoes : s.Goes) (hinner : s.inner = none)
    (ev : ScreenEvent) : Sound s₀ (evs ++ [ev]) (s.handleOuter ev) := by
  obtain ⟨hplain, hresting, hon, hfound⟩ := offer_spec (ev.convert s.originScreen) h.resting
  have hnone := h.chosen_eq_nil hgoes hinner
  have hoffered := h.offered ev hplain hresting hon
  unfold Tracking.handleOuter
  dsimp only
  rcases hoffer : offer (ev.convert s.originScreen) s.buttons with ⟨buttons, _ | ⟨i, r⟩⟩
  · rw [hoffer] at hoffered
    exact hoffered.handleMenuEvent (List.mem_append_right evs List.mem_cons_self)
  · rw [hoffer] at hoffered hfound
    obtain ⟨b, hget, hshown, rfl⟩ := hfound i _ rfl
    have hb := h.resting b (List.mem_of_getElem? hget)
    dsimp only at hoffered ⊢
    have hacted : Sound s₀ (evs ++ [ev])
        (if (b.handleEvent false ((ev.convert s.originScreen).convert b.frame.origin)).triggers then
          ({ s with buttons := buttons } : Tracking).act i else { s with buttons := buttons }) := by
      split
      · next htriggers =>
          refine hoffered.act (h.choice hget hshown ((handleEvent_triggers hb _).mp htriggers)) ?_ ?_
          · intro j hj
            change j ∈ s.chosen at hj
            rw [hnone] at hj
            cases hj
          · intro k levels hk
            change s.inner = _ at hk
            rw [hinner] at hk
            cases hk
      · exact hoffered
    have hchosen : ∀ j ∈ (if (b.handleEvent false ((ev.convert s.originScreen).convert
        b.frame.origin)).triggers then ({ s with buttons := buttons } : Tracking).act i else
          { s with buttons := buttons }).chosen, j = i := by
      split
      · show ∀ j ∈ i :: s.chosen, j = i
        rw [hnone]
        exact List.forall_mem_singleton.mpr rfl
      · show ∀ j ∈ s.chosen, j = i
        rw [hnone]
        exact fun j hj => by cases hj
    split
    · refine hacted.tracks hchosen fun k levels hk => ?_
      cases hk
      rfl
    · exact hacted

theorem Sound.handleInner (h : Sound s₀ evs s) {i : Nat} {levels : List Bool}
    (hinner : s.inner = some (i, levels)) (ev : ScreenEvent) :
    Sound s₀ (evs ++ [ev]) (s.handleInner i levels ev) := by
  have hskip : Sound s₀ (evs ++ [ev]) s := h.offered ev rfl h.resting rfl
  have hsame : ∀ j ∈ s.chosen, j = i := by
    intro j hj
    obtain ⟨-, k, hchosen, htracks⟩ := h.single (List.ne_nil_of_mem hj)
    rw [hchosen j hj, htracks i levels hinner]
  unfold Tracking.handleInner
  split
  · exact hskip
  · next b hget =>
      split
      · next hshown =>
          have hb := h.resting b (List.mem_of_getElem? hget)
          extract_lets r noted acted levels'
          obtain ⟨hplain, hresting, hon⟩ := handleEvent_button hb
            ((ev.convert s.originScreen).convert b.frame.origin)
          have hset {α : Type} (f : Button → α) (hf : f r.button = f b) :
              (s.buttons.set i r.button).map f = s.buttons.map f := by
            obtain ⟨hlt, rfl⟩ := List.getElem?_eq_some_iff.mp hget
            rw [List.map_set, hf, ← List.getElem_map f (h := by rwa [List.length_map])]
            exact List.set_getElem_self _
          have hnoted : Sound s₀ (evs ++ [ev]) noted := by
            refine h.offered ev (hset _ hplain) ?_ (hset _ hon)
            intro button hbutton
            rcases List.mem_or_eq_of_mem_set hbutton with hold | rfl
            · exact h.resting button hold
            · exact hresting
          have hacted : Sound s₀ (evs ++ [ev]) acted ∧ ∀ j ∈ acted.chosen, j = i := by
            by_cases htriggers : r.triggers = true
            · rw [show acted = noted.act i from if_pos htriggers]
              refine ⟨hnoted.act (h.choice hget hshown ((handleEvent_triggers hb _).mp htriggers))
                hsame fun k levels hk => ?_, List.forall_mem_cons.mpr ⟨rfl, hsame⟩⟩
              change s.inner = _ at hk
              rw [hinner] at hk
              cases hk
              rfl
            · rw [show acted = noted from if_neg htriggers]
              exact ⟨hnoted, hsame⟩
          refine hacted.1.tracks hacted.2 fun k levels hk => ?_
          split at hk
          · cases hk
          · cases hk
            rfl
      · exact hskip

theorem Sound.handle (h : Sound s₀ evs s) (hgoes : s.Goes) (ev : ScreenEvent) :
    Sound s₀ (evs ++ [ev]) (s.handle ev) := by
  unfold Tracking.handle
  split
  · next hinner => exact h.handleOuter hgoes hinner ev
  · next i levels hinner => exact h.handleInner hinner ev

/-- However the events end, what was chosen until then was chosen by a release. -/
theorem Sound.track (h : Sound s₀ evs s) (hgoes : s.Goes) (inputs : List Screen.Input) :
    (∀ s' rest, track s inputs = .returned s' rest →
      ∃ taken, inputs = taken.map Screen.Input.event ++ rest ∧ Sound s₀ (evs ++ taken) s') ∧
    ∀ s', track s inputs = .waiting s' →
      ∃ taken, inputs = taken.map Screen.Input.event ∧ Sound s₀ (evs ++ taken) s' ∧ s'.Goes := by
  induction inputs generalizing s evs with
  | nil =>
      refine ⟨fun s' rest hno => (nomatch hno), fun s' hwaits => ?_⟩
      cases hwaits
      exact ⟨[], rfl, by rwa [List.append_nil], hgoes⟩
  | cons input rest ih =>
      rw [Menu.track]
      rcases hnext : Screen.eventNext input with e | ev
      · exact ⟨fun s' rest hno => (nomatch hno), fun s' hno => nomatch hno⟩
      · obtain rfl : input = .event ev := by
          rcases input with ev' | size
          · rw [Screen.eventNext] at hnext
            split at hnext
            · cases hnext
            · cases hnext
              rfl
          · cases hnext
        have hstep := h.handle hgoes ev
        dsimp only
        split
        · refine ⟨fun s' rest' hreturns => ?_, fun s' hno => nomatch hno⟩
          cases hreturns
          exact ⟨[ev], rfl, hstep⟩
        · next hnot =>
            obtain ⟨hreturned, hwaiting⟩ := ih hstep (Bool.not_eq_true _ |>.mp hnot)
            refine ⟨fun s' rest' hreturns => ?_, fun s' hwaits => ?_⟩
            · obtain ⟨taken, rfl, hsound⟩ := hreturned s' rest' hreturns
              exact ⟨ev :: taken, rfl, by rwa [List.append_assoc] at hsound⟩
            · obtain ⟨taken, rfl, hsound, hgoes'⟩ := hwaiting s' hwaits
              exact ⟨ev :: taken, rfl, by rwa [List.append_assoc] at hsound, hgoes'⟩

end Sound

section Opened

variable (originScreen : Point) (size : Size) (buttons : List (Size × Bool)) (start : ScreenEvent)

theorem opened_sound : Sound (opened originScreen size buttons start) []
    (opened originScreen size buttons start) := by
  have hbutton : ∀ b ∈ (opened originScreen size buttons start).buttons, ∃ placed enabled,
      b = menuButton placed enabled := by
    intro b hb
    obtain ⟨i, hlt, rfl⟩ := List.mem_iff_getElem.mp hb
    exact ⟨_, _, List.getElem_zipWith⟩
  refine ⟨rfl, rfl, rfl, ?_, ?_, ?_, fun hno => (nomatch hno), fun i hno => (nomatch hno),
    fun hno => absurd rfl hno⟩
  · conv_rhs => rw [← List.map_id (opened originScreen size buttons start).buttons]
    refine List.map_congr_left fun b hb => ?_
    obtain ⟨placed, enabled, rfl⟩ := hbutton b hb
    rfl
  · intro b hb
    obtain ⟨placed, enabled, rfl⟩ := hbutton b hb
    exact ⟨rfl, rfl, rfl⟩
  · rintro ⟨b, hb, hon⟩
    obtain ⟨placed, enabled, rfl⟩ := hbutton b hb
    cases hon

variable {originScreen size buttons start} in
/-- The buttons of a menu are enabled as they are when it is opened. -/
theorem enabled_opened {b : Button} {i : Nat}
    (h : (opened originScreen size buttons start).buttons[i]? = some b) :
    (buttons.map Prod.snd)[i]? = some b.enabledWindow := by
  rw [opened, List.getElem?_zipWith] at h
  rcases hplaced : (layout size (buttons.map Prod.fst)).2[i]? with _ | placed
  · rw [hplaced] at h
    cases h
  · rcases hsnd : (buttons.map Prod.snd)[i]? with _ | enabled
    · rw [hplaced, hsnd] at h
      cases h
    · rw [hplaced, hsnd] at h
      cases h
      rfl

variable {originScreen size buttons start} in
/-- What is chosen from a menu that returns is enabled. -/
theorem enabled_of_chosen {inputs rest : List Screen.Input} {s : Tracking}
    (h : track (opened originScreen size buttons start) inputs = .returned s rest) {i : Nat}
    (hchosen : i ∈ s.chosen) : (buttons.map Prod.snd)[i]? = some true := by
  obtain ⟨taken, -, hsound⟩ :=
    ((opened_sound originScreen size buttons start).track rfl inputs).1 s rest h
  obtain ⟨-, -, -, release, -, -, -, b, hb, -, hhits, -⟩ := hsound.chosen i hchosen
  have henabled := enabled_opened hb
  rwa [show b.enabledWindow = true from (Bool.and_eq_true_iff.mp hhits).2] at henabled

/-- A menu that returns has called the action of one button at most, and only because the mouse
came up in it after an event that was late enough, and elsewhere, had switched the buttons on. -/
theorem track_returned {inputs rest : List Screen.Input} {s : Tracking}
    (h : track (opened originScreen size buttons start) inputs = .returned s rest) :
    ∃ taken, inputs = taken.map Screen.Input.event ++ rest ∧
      (∀ i ∈ s.chosen, Choice (opened originScreen size buttons start) taken i) ∧
      ∀ i ∈ s.chosen, ∀ j ∈ s.chosen, i = j := by
  obtain ⟨taken, hsplit, hsound⟩ :=
    ((opened_sound originScreen size buttons start).track rfl inputs).1 s rest h
  refine ⟨taken, hsplit, hsound.chosen, fun i hi j hj => ?_⟩
  obtain ⟨-, k, hsame, -⟩ := hsound.single (List.ne_nil_of_mem hi)
  rw [hsame i hi, hsame j hj]

/-- The buttons of an open menu are where `layout` put them. -/
theorem hitAt_iff {evs : List ScreenEvent} {s : Tracking}
    (h : Sound (opened originScreen size buttons start) evs s) (ev : ScreenEvent)
    (hmouse : ev.isMouse = true) (i : Nat) :
    HitAt (layout size (buttons.map Prod.fst)).2 ev.mouse.origin i ↔
      ∃ b, s.buttons[i]? = some b ∧ b.visible = true ∧
        b.hitTest (ev.convert b.frame.origin).mouse.origin = true := by
  have hget := congrArg (·[i]?) h.plain
  have hlength : (layout size (buttons.map Prod.fst)).2.length = (buttons.map Prod.snd).length := by
    rw [layout, length_layoutLoop, List.length_map, List.length_map]
  rw [List.getElem?_map, opened, List.getElem?_zipWith] at hget
  have hconvert (origin : Point) : (ev.convert origin).mouse.origin =
      ⟨ev.mouse.origin.x - origin.x, ev.mouse.origin.y - origin.y⟩ := by
    rw [ScreenEvent.convert, if_pos hmouse]
  unfold HitAt
  rcases hplaced : (layout size (buttons.map Prod.fst)).2[i]? with _ | placed
  · rw [hplaced] at hget
    have hnone : s.buttons[i]? = none := Option.map_eq_none_iff.mp hget
    rw [hnone]
    constructor
    · rintro ⟨b, hno, -⟩
      cases hno
    · rintro ⟨b, hno, -⟩
      cases hno
  · have hlt : i < (buttons.map Prod.snd).length :=
      hlength ▸ (List.getElem?_eq_some_iff.mp hplaced).1
    rw [hplaced, List.getElem?_eq_getElem hlt] at hget
    obtain ⟨b, hb, hplain⟩ := Option.map_eq_some_iff.mp hget
    have hframe : b.frame = placed.frame := congrArg Button.frame hplain
    have hinset : b.hitTestInset = placed.hitTestInset := congrArg Button.hitTestInset hplain
    have hvisible : b.visible = placed.visible := congrArg Button.visible hplain
    have hhit : b.hitTest (ev.convert b.frame.origin).mouse.origin =
        placed.hit ev.mouse.origin := by
      rw [Button.hitTest, hconvert, hframe, hinset]
      rfl
    rw [hb]
    constructor
    · rintro ⟨button, hbutton, hyes⟩
      cases hbutton
      exact ⟨b, rfl, by rwa [hvisible, hhit]⟩
    · rintro ⟨button, hbutton, hyes⟩
      cases hbutton
      exact ⟨placed, rfl, by rwa [hvisible, hhit] at hyes⟩

/-- An event that no button handles leaves what was chosen. -/
theorem chosen_handleMenuEvent (s : Tracking) (ev : ScreenEvent) :
    (s.handleMenuEvent ev).chosen = s.chosen := by
  have hawake : (if s.wakes ev && !s.trackState.active then s.activate else s).chosen = s.chosen := by
    split <;> rfl
  unfold Tracking.handleMenuEvent
  extract_lets awake
  split
  · unfold Tracking.handleMouse
    dsimp only
    split
    · exact hawake
    · split
      · split <;> exact hawake
      · exact hawake
  · split <;> exact hawake

/-- A menu of two buttons, of which the second is not enabled. -/
def openedTwo : Tracking :=
  opened ⟨10, 10⟩ (ownSize ⟨80, 24⟩ [⟨8, 1⟩, ⟨8, 1⟩]) [(⟨8, 1⟩, true), (⟨8, 1⟩, false)]
    (ScreenEvent.move ⟨10, 10⟩ 0)

/-- The mouse moves in the menu, and comes up in the first button. -/
theorem track_returned_first :
    let inputs := [Screen.Input.event (ScreenEvent.move ⟨12, 11⟩ 200),
      .event (ScreenEvent.release ⟨13, 11⟩ 400)]
    let s := (openedTwo.handle (ScreenEvent.move ⟨12, 11⟩ 200)).handle
      (ScreenEvent.release ⟨13, 11⟩ 400)
    s.chosen = [0] ∧ ∃ taken, inputs = taken.map Screen.Input.event ++ [] ∧
      (∀ i ∈ s.chosen, Choice openedTwo taken i) ∧ ∀ i ∈ s.chosen, ∀ j ∈ s.chosen, i = j := by
  intro inputs s
  have h : track openedTwo inputs = .returned s [] := by decide
  exact ⟨by decide, track_returned _ _ _ _ h⟩

end Opened

end Menu
end Ui
end Debase
