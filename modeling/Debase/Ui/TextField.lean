import Debase.Ui.ContentText
import Debase.Ui.Menu
import Debase.Library.Run

/-!
# Text fields

`ui/TextField.h`: a field shows the part of its value that begins at `_offLeft`, with the cursor
at `_offCursor`.  Both are offsets of bytes.

A step gives nothing where a walk of `NextN` leaves the text, or where an offset names no place in
it.  What the owner of a field does when it is called out (it sets the value, or the focus) are
inputs of their own, after the event.
-/

namespace Debase
namespace Ui

open Library Library.Utf8

/-! ## Events -/

/-- The mouse of an event: where it is, and the bits of `bstate` that are asked for. -/
structure Mouse where
  origin : Point
  button1Pressed : Bool
  button3Pressed : Bool
  button1Released : Bool
deriving DecidableEq

/-- `Event`.  Its type is a byte that was typed, or a code of a key. -/
structure Event where
  type : Int
  mouse : Mouse
deriving DecidableEq

namespace Event

/-- `KEY_MOUSE`. -/
def typeMouse : Int := 0o631

/-- The byte of the backspace key. -/
def keyDelete : Int := 0x7F

/-- `KEY_DC`. -/
def keyFnDelete : Int := 0o512

/-- `KEY_LEFT`. -/
def keyLeft : Int := 0o404

/-- `KEY_RIGHT`. -/
def keyRight : Int := 0o405

/-- `KEY_UP`. -/
def keyUp : Int := 0o403

/-- `KEY_DOWN`. -/
def keyDown : Int := 0o402

/-- The byte of a tab. -/
def keyTab : Int := 9

/-- `KEY_BTAB`. -/
def keyBackTab : Int := 0o541

/-- The byte of a newline. -/
def keyReturn : Int := 10

/-- The byte of an escape. -/
def keyEscape : Int := 0x1B

/-- `mouseDown()`. -/
def mouseDown (ev : Event) : Bool := ev.type = typeMouse && ev.mouse.button1Pressed

/-- `mouseDown(MouseButtons::Any)`. -/
def mouseDownAny (ev : Event) : Bool :=
  ev.type = typeMouse && (ev.mouse.button1Pressed || ev.mouse.button3Pressed)

/-- `mouseUp()`. -/
def mouseUp (ev : Event) : Bool := ev.type = typeMouse && ev.mouse.button1Released

end Event

/-- `Intersection`. -/
def intersection (a b : Rect) : Rect :=
  let minX := max a.origin.x b.origin.x
  let maxX := min (a.origin.x + a.size.x) (b.origin.x + b.size.x)
  let w := maxX - minX
  let minY := max a.origin.y b.origin.y
  let maxY := min (a.origin.y + a.size.y) (b.origin.y + b.size.y)
  let h := maxY - minY
  if w ≤ 0 ∨ h ≤ 0 then ⟨⟨0, 0⟩, ⟨0, 0⟩⟩ else ⟨⟨minX, minY⟩, ⟨w, h⟩⟩

/-- `Inset`. -/
def inset (x : Rect) (e : Edges) : Rect :=
  ⟨⟨x.origin.x + e.l, x.origin.y + e.t⟩, ⟨x.size.x - e.l - e.r, x.size.y - e.t - e.b⟩⟩

/-- `Empty`. -/
def empty (x : Rect) : Bool := x.size.x = 0 || x.size.y = 0

/-- `HitTest`. -/
def hitTest (r : Rect) (p : Point) (e : Edges) : Bool :=
  !empty (intersection (inset r e) ⟨p, ⟨1, 1⟩⟩)

/-! ## The field -/

/-- `Align`. -/
inductive Align where
  | left
  | center
  | right
deriving DecidableEq

/-- `CursorState`. -/
structure CursorState where
  visible : Bool
  origin : Point
deriving DecidableEq

/-- `UnfocusReason`. -/
inductive UnfocusReason where
  | tab
  | ret
  | escape
  | click
deriving DecidableEq

/-- The actions of its owner that a field calls. -/
inductive Callout where
  | valueChanged
  | focus
  | unfocus (reason : UnfocusReason)
deriving DecidableEq

/-- `TextField`, with what it asks its view for. -/
structure TextField where
  size : Size
  hitTestInset : Edges
  enabledWindow : Bool
  value : Bytes
  align : Align
  drag : Bool
  offLeft : Int
  offCursor : Int
  focused : Bool
  cursorState : CursorState
deriving DecidableEq

/-- `std::numeric_limits<ssize_t>::min()`. -/
def ssizeMin : Int := -2 ^ 63

/-- `std::numeric_limits<ssize_t>::max()`. -/
def ssizeMax : Int := 2 ^ 63 - 1

/-- `std::clamp`. -/
def clamp (v lo hi : Int) : Int := if v < lo then lo else if hi < v then hi else v

namespace TextField

/-- `_value.begin()+off`. -/
def iterator (f : TextField) (off : Int) : Option Nat :=
  if 0 ≤ off ∧ off ≤ f.value.length then some off.toNat else none

/-- `_left`, which is `_cursorMin` too. -/
def left (f : TextField) : Option Nat := f.iterator f.offLeft

/-- `_cursor`. -/
def cursor (f : TextField) : Option Nat := f.iterator f.offCursor

/-- `_leftMax`. -/
def leftMax (f : TextField) : Option Nat := UTF8.nextN f.value f.value.length 0 (-f.size.x)

/-- `_cursorMax`. -/
def cursorMax (f : TextField) : Option Nat := do
  let left ← f.left
  UTF8.nextN f.value left f.value.length f.size.x

/-- `_offUpdate`. -/
def offUpdate (f : TextField) : Option TextField := do
  let leftMax ← f.leftMax
  let f := { f with offLeft := clamp f.offLeft 0 leftMax }
  let cursorMin ← f.left
  let cursorMax ← f.cursorMax
  pure { f with offCursor := clamp f.offCursor cursorMin cursorMax }

/-- `seek`. -/
def seek (f : TextField) : Align → Option TextField
  | .left => offUpdate { f with offLeft := ssizeMin, offCursor := ssizeMin }
  | .right => offUpdate { f with offLeft := ssizeMax, offCursor := ssizeMax }
  -- it aborts
  | .center => none

/-- `value(x)`. -/
def setValue (f : TextField) (x : Bytes) : Option TextField :=
  if f.value = x then some f else seek { f with value := x } .right

/-- `_focusedAndEnabled`. -/
def focusedAndEnabled (f : TextField) : Bool := f.focused && f.enabledWindow

/-- `_alignOff`. -/
def alignOff (f : TextField) : Int :=
  match f.align with
  | .left => 0
  | .center => if (len f.value : Int) < f.size.x then (f.size.x - len f.value) / 2 else 0
  | .right => 0

/-- `layout`. -/
def layout (f : TextField) : Option TextField := do
  let f ← f.offUpdate
  if f.focusedAndEnabled then
    let left ← f.left
    let cursor ← f.cursor
    let cursorOff ← UTF8.lenBetween f.value left cursor
    pure { f with cursorState := ⟨true, ⟨f.alignOff + cursorOff, 0⟩⟩ }
  else pure f

/-- `draw`: where it draws which text. -/
def draw (f : TextField) : Option (Point × Bytes) := do
  let left ← f.left
  let right ← UTF8.nextN f.value left f.value.length f.size.x
  pure (⟨f.alignOff, 0⟩, (f.value.take right).drop left)

/-! ## Keys -/

/-- `_value.erase(first, last)`. -/
def erase (f : TextField) (first last : Nat) : TextField :=
  { f with value := f.value.take first ++ f.value.drop last }

/-- `_handleKey` for `KeyDelete`. -/
def handleDelete (f : TextField) : Option (TextField × Option Callout) := do
  let cursor ← f.cursor
  if cursor = 0 then pure (f, none)
  else
    let eraseBegin ← UTF8.prev f.value cursor 0
    let eraseSize := cursor - eraseBegin
    let f := f.erase eraseBegin cursor
    let f ← offUpdate { f with offCursor := f.offCursor - eraseSize }
    pure (f, some .valueChanged)

/-- `_handleKey` for `KeyFnDelete`. -/
def handleFnDelete (f : TextField) : Option (TextField × Option Callout) := do
  let cursor ← f.cursor
  if cursor = f.value.length then pure (f, none)
  else
    let eraseEnd ← UTF8.next f.value cursor f.value.length
    let f ← (f.erase cursor eraseEnd).offUpdate
    pure (f, some .valueChanged)

/-- Shift the view by a code point to the left. -/
def shiftLeft (f : TextField) : Option TextField := do
  let left ← f.left
  let left ← UTF8.prev f.value left 0
  pure { f with offLeft := left }

/-- Shift the view by a code point to the right. -/
def shiftRight (f : TextField) : Option TextField := do
  let left ← f.left
  let left ← UTF8.next f.value left f.value.length
  pure { f with offLeft := left }

/-- `_handleKey` for `KeyLeft`. -/
def handleLeft (f : TextField) : Option (TextField × Option Callout) := do
  let cursor ← f.cursor
  if cursor = 0 then pure (f, none)
  else
    -- the cursor is at the beginning of the display
    let cursorMin ← f.left
    let f ← if cursor = cursorMin then f.shiftLeft else pure f
    let it ← UTF8.prev f.value cursor 0
    pure ({ f with offCursor := it }, none)

/-- `_handleKey` for `KeyRight`. -/
def handleRight (f : TextField) : Option (TextField × Option Callout) := do
  let cursor ← f.cursor
  if cursor = f.value.length then pure (f, none)
  else
    -- the cursor is at the end of the display
    let cursorMax ← f.cursorMax
    let f ← if cursor = cursorMax then f.shiftRight else pure f
    let it ← UTF8.next f.value cursor f.value.length
    pure ({ f with offCursor := it }, none)

/-- `_handleKey` for `KeyUp`. -/
def handleUp (f : TextField) : Option (TextField × Option Callout) := do
  let f := { f with offLeft := 0 }
  let cursorMin ← f.left
  let f ← offUpdate { f with offCursor := cursorMin }
  pure (f, none)

/-- `_handleKey` for `KeyDown`. -/
def handleDown (f : TextField) : Option (TextField × Option Callout) := do
  let leftMax ← f.leftMax
  let f := { f with offLeft := leftMax }
  let cursorMax ← f.cursorMax
  let f ← offUpdate { f with offCursor := cursorMax }
  pure (f, none)

/-- The byte is a part of a text: it is no ASCII byte, or it is printable. -/
def typeable (c : Int) : Bool := 0 ≤ c && c < 256 && (128 ≤ c || isPrint (UInt8.ofNat c.toNat))

/-- `_value.insert(it, c)`. -/
def insert (f : TextField) (it : Nat) (c : UInt8) : TextField :=
  { f with value := f.value.take it ++ c :: f.value.drop it }

/-- `_handleKey` for any other type. -/
def handleTyped (f : TextField) (c : Int) : Option (TextField × Option Callout) :=
  if typeable c then do
    let cursor ← f.cursor
    -- the cursor is at the end of the display
    let cursorMax ← f.cursorMax
    let f ← if cursor = cursorMax then f.shiftRight else pure f
    let f := f.insert cursor (UInt8.ofNat c.toNat)
    let f ← offUpdate { f with offCursor := f.offCursor + 1 }
    pure (f, some .valueChanged)
  else some (f, none)

/-- `_handleKey`. -/
def handleKey (f : TextField) (type : Int) : Option (TextField × Option Callout) :=
  if type = Event.keyDelete then f.handleDelete
  else if type = Event.keyFnDelete then f.handleFnDelete
  else if type = Event.keyLeft then f.handleLeft
  else if type = Event.keyRight then f.handleRight
  else if type = Event.keyUp then f.handleUp
  else if type = Event.keyDown then f.handleDown
  else if type = Event.keyTab then some (f, some (.unfocus .tab))
  else if type = Event.keyBackTab then some (f, some (.unfocus .tab))
  else if type = Event.keyReturn then some (f, some (.unfocus .ret))
  else if type = Event.keyEscape then some (f, some (.unfocus .escape))
  else f.handleTyped type

/-! ## The mouse -/

/-- `View::hitTest`. -/
def hitTest (f : TextField) (p : Point) : Bool := Ui.hitTest ⟨⟨0, 0⟩, f.size⟩ p f.hitTestInset

/-- `_drag` after an event of the mouse. -/
def dragAfter (f : TextField) (ev : Event) : Bool :=
  if ev.mouseDown && f.hitTest ev.mouse.origin && !f.drag then true
  else if ev.mouseUp && f.drag then false
  else f.drag

/-- An event of the mouse moves the cursor. -/
def moves (f : TextField) (ev : Event) : Bool :=
  ev.mouseDown && f.hitTest ev.mouse.origin || f.dragAfter ev

/-- Where the mouse is, from the beginning of the text. -/
def offX (f : TextField) (ev : Event) : Int := ev.mouse.origin.x - f.alignOff

/-- Update the cursor position to the clicked point. -/
def moveCursor (f : TextField) (ev : Event) : Option TextField := do
  let left ← f.left
  let offIt ← UTF8.nextN f.value left f.value.length (f.offX ev)
  pure { f with offCursor := offIt }

/-- The action that an event of the mouse calls. -/
def mouseCallout (f : TextField) (ev : Event) : Option Callout :=
  if ev.mouseDown && f.hitTest ev.mouse.origin && !f.focused then some .focus
  else if ev.mouseDownAny && !f.hitTest ev.mouse.origin && f.focused then some (.unfocus .click)
  else none

/-- `_handleEvent` for the mouse. -/
def handleMouse (f : TextField) (ev : Event) : Option (TextField × Bool × Option Callout) := do
  let handled := ev.mouseDown && f.hitTest ev.mouse.origin || ev.mouseUp && f.drag
  let f' := { f with drag := f.dragAfter ev }
  let f' ← if f.moves ev then f'.moveCursor ev else pure f'
  pure (f', handled, f.mouseCallout ev)

/-- `_handleEvent`: the field, whether the event was handled, and the action that is called. -/
def handleEvent (f : TextField) (ev : Event) : Option (TextField × Bool × Option Callout) :=
  if ev.type = Event.typeMouse then
    if f.enabledWindow then f.handleMouse ev else some (f, false, none)
  else if f.focusedAndEnabled then
    if f.drag then some (f, true, none)
    else (f.handleKey ev.type).map fun r => (r.1, true, r.2)
  else some (f, false, none)

/-! ## Runs -/

/-- What happens to a field: an event, a pass over the views, or a call of its owner. -/
inductive Input where
  | event (ev : Event)
  | layout
  | draw
  | setValue (x : Bytes)
  | seekRight
  | setAlign (x : Align)
  | setSize (x : Size)
  | setFocused (x : Bool)
  | setEnabledWindow (x : Bool)
deriving DecidableEq

def step (f : TextField) : Input → Option TextField
  | .event ev => (f.handleEvent ev).map Prod.fst
  | .layout => f.layout
  | .draw => f.draw.map fun _ => f
  | .setValue x => f.setValue x
  | .seekRight => f.seek .right
  | .setAlign x => some { f with align := x }
  | .setSize x => some { f with size := Menu.setSize x }
  | .setFocused x => some { f with focused := x }
  | .setEnabledWindow x => some { f with enabledWindow := x }

/-! ## Offsets stay in the text -/

theorem clamp_ge {lo hi : Int} (h : lo ≤ hi) (v : Int) : lo ≤ clamp v lo hi := by
  unfold clamp
  split
  · exact Int.le_refl lo
  · split <;> omega

theorem clamp_le {lo hi : Int} (h : lo ≤ hi) (v : Int) : clamp v lo hi ≤ hi := by
  unfold clamp
  split
  · exact h
  · split <;> omega

/-- The offsets name places in the text. -/
structure Within (f : TextField) : Prop where
  width : 0 ≤ f.size.x
  left_nonneg : 0 ≤ f.offLeft
  left_le : f.offLeft ≤ f.value.length
  cursor_nonneg : 0 ≤ f.offCursor
  cursor_le : f.offCursor ≤ f.value.length

theorem iterator_eq_some {f : TextField} {off : Int} (h : 0 ≤ off) (hle : off ≤ f.value.length) :
    f.iterator off = some off.toNat := if_pos ⟨h, hle⟩

theorem Within.left_eq {f : TextField} (h : f.Within) : f.left = some f.offLeft.toNat :=
  iterator_eq_some h.left_nonneg h.left_le

theorem Within.cursor_eq {f : TextField} (h : f.Within) : f.cursor = some f.offCursor.toNat :=
  iterator_eq_some h.cursor_nonneg h.cursor_le

theorem iterator_natCast {f : TextField} {i : Nat} (h : i ≤ f.value.length) :
    f.iterator i = some i := by
  rw [iterator_eq_some (Int.natCast_nonneg i) (Int.ofNat_le.mpr h), Int.toNat_natCast]

theorem leftMax_le {f : TextField} (h : 0 ≤ f.size.x) :
    ∃ r, f.leftMax = some r ∧ r ≤ f.value.length :=
  UTF8.nextN_backward (Nat.le_refl _) (by omega)

theorem cursorMax_le {f : TextField} (h : 0 ≤ f.size.x) {left : Nat} (hleft : f.left = some left)
    (hle : left ≤ f.value.length) :
    ∃ r, f.cursorMax = some r ∧ left ≤ r ∧ r ≤ f.value.length := by
  obtain ⟨r, hwalk, hr⟩ := UTF8.nextN_forward hle h
  refine ⟨r, ?_, hr⟩
  rw [cursorMax, hleft]
  exact hwalk

/-- Whatever the offsets were, the update puts them into the text. -/
theorem offUpdate_eq {f : TextField} (h : 0 ≤ f.size.x) :
    ∃ l c : Nat, f.offUpdate = some { f with offLeft := l, offCursor := c } ∧ l ≤ c ∧
      c ≤ f.value.length := by
  obtain ⟨max, hmax, hmaxle⟩ := leftMax_le h
  obtain ⟨l, hl⟩ := Int.eq_ofNat_of_zero_le (clamp_ge (Int.natCast_nonneg max) f.offLeft)
  have hlmax := clamp_le (Int.natCast_nonneg max) f.offLeft
  rw [hl] at hlmax
  have hlle : l ≤ f.value.length := by omega
  have hleft : left { f with offLeft := l } = some l :=
    iterator_natCast (f := { f with offLeft := l }) hlle
  obtain ⟨cmax, hcmax, hge, hle⟩ := cursorMax_le (f := { f with offLeft := l }) h hleft hlle
  have hrange : (l : Int) ≤ cmax := Int.ofNat_le.mpr hge
  have hcge := clamp_ge hrange f.offCursor
  have hcle := clamp_le hrange f.offCursor
  obtain ⟨c, hc⟩ := Int.eq_ofNat_of_zero_le (Int.le_trans (Int.natCast_nonneg l) hcge)
  rw [hc] at hcge hcle
  have hlength : cmax ≤ f.value.length := hle
  refine ⟨l, c, ?_, by omega, by omega⟩
  simp only [offUpdate, hmax, Option.bind_eq_bind, Option.bind_some, hl, hleft, hcmax, hc,
    Option.pure_def]

theorem within_offsets {f : TextField} (h : 0 ≤ f.size.x) {l c : Nat} (hle : l ≤ c)
    (hc : c ≤ f.value.length) : Within { f with offLeft := l, offCursor := c } where
  width := h
  left_nonneg := Int.natCast_nonneg l
  left_le := Int.ofNat_le.mpr (Nat.le_trans hle hc)
  cursor_nonneg := Int.natCast_nonneg c
  cursor_le := Int.ofNat_le.mpr hc

theorem offUpdate_within {f : TextField} (h : 0 ≤ f.size.x) :
    ∃ f', f.offUpdate = some f' ∧ f'.Within := by
  obtain ⟨l, c, heq, hle, hc⟩ := offUpdate_eq h
  exact ⟨_, heq, within_offsets h hle hc⟩

theorem layout_within {f : TextField} (h : 0 ≤ f.size.x) :
    ∃ f', f.layout = some f' ∧ f'.Within := by
  obtain ⟨l, c, heq, hle, hc⟩ := offUpdate_eq h
  have hwithin := within_offsets h hle hc
  rw [layout, heq, Option.bind_eq_bind, Option.bind_some]
  split
  · rw [hwithin.left_eq, hwithin.cursor_eq]
    have hlen : UTF8.lenBetween f.value (l : Int).toNat (c : Int).toNat =
        some (len ((f.value.take c).drop l)) := if_pos hle
    refine ⟨_, by simp only [Option.bind_eq_bind, Option.bind_some, hlen]; rfl, ?_⟩
    exact ⟨h, hwithin.left_nonneg, hwithin.left_le, hwithin.cursor_nonneg, hwithin.cursor_le⟩
  · exact ⟨_, rfl, hwithin⟩

theorem draw_isSome {f : TextField} (h : f.Within) : ∃ r, f.draw = some r := by
  have hleft := h.left_le
  have hle : f.offLeft.toNat ≤ f.value.length := by omega
  obtain ⟨right, hwalk, -⟩ := UTF8.nextN_forward hle h.width
  rw [draw, h.left_eq]
  simp only [Option.bind_eq_bind, Option.bind_some, hwalk]
  exact ⟨_, rfl⟩

/-! ## A key keeps the offsets in the text -/

theorem prev_le {f : TextField} {it : Nat} (hle : it ≤ f.value.length) :
    ∃ r, UTF8.prev f.value it 0 = some r ∧ r ≤ it :=
  UTF8.nextN_backward hle (by decide)

theorem next_le {f : TextField} {it : Nat} (hle : it ≤ f.value.length) :
    ∃ r, UTF8.next f.value it f.value.length = some r ∧ r ≤ f.value.length := by
  obtain ⟨r, hwalk, -, hr⟩ := UTF8.nextN_forward hle (show (0 : Int) ≤ 1 by decide)
  exact ⟨r, hwalk, hr⟩

theorem Within.left_toNat_le {f : TextField} (h : f.Within) : f.offLeft.toNat ≤ f.value.length := by
  have hle := h.left_le
  omega

theorem Within.cursor_toNat_le {f : TextField} (h : f.Within) :
    f.offCursor.toNat ≤ f.value.length := by
  have hle := h.cursor_le
  omega

theorem Within.withLeft {f : TextField} (h : f.Within) {l : Nat} (hle : l ≤ f.value.length) :
    Within { f with offLeft := l } :=
  ⟨h.width, Int.natCast_nonneg l, Int.ofNat_le.mpr hle, h.cursor_nonneg, h.cursor_le⟩

theorem Within.withCursor {f : TextField} (h : f.Within) {c : Nat} (hle : c ≤ f.value.length) :
    Within { f with offCursor := c } :=
  ⟨h.width, h.left_nonneg, h.left_le, Int.natCast_nonneg c, Int.ofNat_le.mpr hle⟩

theorem Within.shiftLeft {f : TextField} (h : f.Within) :
    ∃ l : Nat, f.shiftLeft = some { f with offLeft := l } ∧ l ≤ f.value.length := by
  obtain ⟨l, hwalk, hle⟩ := prev_le h.left_toNat_le
  refine ⟨l, ?_, Nat.le_trans hle h.left_toNat_le⟩
  simp only [TextField.shiftLeft, h.left_eq, Option.bind_eq_bind, Option.bind_some, hwalk,
    Option.pure_def]

theorem Within.shiftRight {f : TextField} (h : f.Within) :
    ∃ l : Nat, f.shiftRight = some { f with offLeft := l } ∧ l ≤ f.value.length := by
  obtain ⟨l, hwalk, hle⟩ := next_le h.left_toNat_le
  refine ⟨l, ?_, hle⟩
  simp only [TextField.shiftRight, h.left_eq, Option.bind_eq_bind, Option.bind_some, hwalk,
    Option.pure_def]

theorem Within.cursorMax {f : TextField} (h : f.Within) :
    ∃ r, f.cursorMax = some r ∧ r ≤ f.value.length := by
  obtain ⟨r, hr, -, hle⟩ := cursorMax_le h.width h.left_eq h.left_toNat_le
  exact ⟨r, hr, hle⟩

theorem Within.handleDelete {f : TextField} (h : f.Within) :
    ∃ r, f.handleDelete = some r ∧ r.1.Within := by
  rw [TextField.handleDelete, h.cursor_eq, Option.bind_eq_bind, Option.bind_some]
  split
  · exact ⟨_, rfl, h⟩
  · obtain ⟨b, hwalk, -⟩ := prev_le h.cursor_toNat_le
    obtain ⟨f', hf', hwithin⟩ := offUpdate_within
      (f := { f.erase b f.offCursor.toNat with
        offCursor := (f.erase b f.offCursor.toNat).offCursor - ↑(f.offCursor.toNat - b) }) h.width
    refine ⟨(f', some .valueChanged), ?_, hwithin⟩
    simp only [Option.bind_eq_bind, Option.bind_some, hwalk, hf', Option.pure_def]

theorem Within.handleFnDelete {f : TextField} (h : f.Within) :
    ∃ r, f.handleFnDelete = some r ∧ r.1.Within := by
  rw [TextField.handleFnDelete, h.cursor_eq, Option.bind_eq_bind, Option.bind_some]
  split
  · exact ⟨_, rfl, h⟩
  · obtain ⟨e, hwalk, -⟩ := next_le h.cursor_toNat_le
    obtain ⟨f', hf', hwithin⟩ := offUpdate_within (f := f.erase f.offCursor.toNat e) h.width
    refine ⟨(f', some .valueChanged), ?_, hwithin⟩
    simp only [Option.bind_eq_bind, Option.bind_some, hwalk, hf', Option.pure_def]

theorem Within.handleLeft {f : TextField} (h : f.Within) :
    ∃ r, f.handleLeft = some r ∧ r.1.Within := by
  rw [TextField.handleLeft, h.cursor_eq, Option.bind_eq_bind, Option.bind_some]
  split
  · exact ⟨_, rfl, h⟩
  · obtain ⟨it, hwalk, hit⟩ := prev_le h.cursor_toNat_le
    have hle := Nat.le_trans hit h.cursor_toNat_le
    rw [h.left_eq, Option.bind_eq_bind, Option.bind_some]
    split
    · obtain ⟨l, hshift, hl⟩ := h.shiftLeft
      refine ⟨({ f with offLeft := l, offCursor := it }, none), ?_, (h.withLeft hl).withCursor hle⟩
      simp only [hshift, Option.bind_some, hwalk, Option.pure_def]
    · refine ⟨({ f with offCursor := it }, none), ?_, h.withCursor hle⟩
      simp only [Option.bind_some, hwalk, Option.pure_def]

theorem Within.handleRight {f : TextField} (h : f.Within) :
    ∃ r, f.handleRight = some r ∧ r.1.Within := by
  rw [TextField.handleRight, h.cursor_eq, Option.bind_eq_bind, Option.bind_some]
  split
  · exact ⟨_, rfl, h⟩
  · obtain ⟨it, hwalk, hle⟩ := next_le h.cursor_toNat_le
    obtain ⟨max, hmax, -⟩ := h.cursorMax
    rw [hmax, Option.bind_eq_bind, Option.bind_some]
    split
    · obtain ⟨l, hshift, hl⟩ := h.shiftRight
      refine ⟨({ f with offLeft := l, offCursor := it }, none), ?_, (h.withLeft hl).withCursor hle⟩
      simp only [hshift, Option.bind_some, hwalk, Option.pure_def]
    · refine ⟨({ f with offCursor := it }, none), ?_, h.withCursor hle⟩
      simp only [Option.bind_some, hwalk, Option.pure_def]

theorem Within.handleUp {f : TextField} (h : f.Within) :
    ∃ r, f.handleUp = some r ∧ r.1.Within := by
  obtain ⟨f', hf', hwithin⟩ := offUpdate_within
    (f := { f with offLeft := 0, offCursor := ((0 : Nat) : Int) }) h.width
  refine ⟨(f', none), ?_, hwithin⟩
  have hleft : left { f with offLeft := 0 } = some 0 :=
    iterator_natCast (f := { f with offLeft := 0 }) (Nat.zero_le _)
  simp only [TextField.handleUp, hleft, Option.bind_eq_bind, Option.bind_some, hf',
    Option.pure_def]

theorem Within.handleDown {f : TextField} (h : f.Within) :
    ∃ r, f.handleDown = some r ∧ r.1.Within := by
  obtain ⟨l, hl, hle⟩ := leftMax_le h.width
  obtain ⟨c, hc, -⟩ := (h.withLeft hle).cursorMax
  obtain ⟨f', hf', hwithin⟩ := offUpdate_within
    (f := { f with offLeft := l, offCursor := (c : Int) }) h.width
  refine ⟨(f', none), ?_, hwithin⟩
  simp only [TextField.handleDown, hl, hc, Option.bind_eq_bind, Option.bind_some, hf',
    Option.pure_def]

theorem Within.handleTyped {f : TextField} (h : f.Within) (c : Int) :
    ∃ r, f.handleTyped c = some r ∧ r.1.Within := by
  rw [TextField.handleTyped]
  split
  · obtain ⟨max, hmax, -⟩ := h.cursorMax
    rw [h.cursor_eq, hmax]
    simp only [Option.bind_eq_bind, Option.bind_some]
    split
    · obtain ⟨l, hshift, -⟩ := h.shiftRight
      obtain ⟨f', hf', hwithin⟩ := offUpdate_within
        (f := { insert { f with offLeft := l } f.offCursor.toNat (UInt8.ofNat c.toNat) with
          offCursor := f.offCursor + 1 }) h.width
      refine ⟨(f', some .valueChanged), ?_, hwithin⟩
      rw [hshift, Option.bind_some]
      exact congrArg (fun r => Option.bind r _) hf'
    · obtain ⟨f', hf', hwithin⟩ := offUpdate_within
        (f := { insert f f.offCursor.toNat (UInt8.ofNat c.toNat) with
          offCursor := f.offCursor + 1 }) h.width
      refine ⟨(f', some .valueChanged), ?_, hwithin⟩
      exact congrArg (fun r => Option.bind r _) hf'
  · exact ⟨_, rfl, h⟩

theorem Within.handleKey {f : TextField} (h : f.Within) (type : Int) :
    ∃ r, f.handleKey type = some r ∧ r.1.Within := by
  unfold TextField.handleKey
  repeat' split
  · exact h.handleDelete
  · exact h.handleFnDelete
  · exact h.handleLeft
  · exact h.handleRight
  · exact h.handleUp
  · exact h.handleDown
  · exact ⟨_, rfl, h⟩
  · exact ⟨_, rfl, h⟩
  · exact ⟨_, rfl, h⟩
  · exact ⟨_, rfl, h⟩
  · exact h.handleTyped type

/-! ## The mouse, and runs -/

/-- A mouse that moves the cursor is not too far to the left: at least as many code points begin
in front of the text that is shown. -/
def MoveWithin (f : TextField) (ev : Event) : Prop :=
  ev.type = Event.typeMouse → f.enabledWindow → f.moves ev →
    0 ≤ f.offX ev ∨ f.offLeft = f.value.length ∨ -f.offX ev ≤ len (f.value.take f.offLeft.toNat)

instance (f : TextField) (ev : Event) : Decidable (f.MoveWithin ev) :=
  inferInstanceAs (Decidable (_ → _ → _ → _))

/-- The event of an input. -/
def Input.event? : Input → Option Event
  | .event ev => some ev
  | _ => none

/-- An input meets the condition on the mouse. -/
def InputWithin (f : TextField) (i : Input) : Prop := ∀ ev ∈ i.event?, f.MoveWithin ev

instance (f : TextField) (i : Input) : Decidable (f.InputWithin i) :=
  inferInstanceAs (Decidable (∀ ev ∈ i.event?, _))

theorem Within.moveCursor_iff {f : TextField} (h : f.Within) (ev : Event) :
    (∃ f', f.moveCursor ev = some f') ↔
      0 ≤ f.offX ev ∨ f.offLeft = f.value.length ∨
        -f.offX ev ≤ len (f.value.take f.offLeft.toNat) := by
  have hsome : (∃ f', f.moveCursor ev = some f') ↔
      (UTF8.nextN f.value f.offLeft.toNat f.value.length (f.offX ev)).isSome := by
    rw [moveCursor, h.left_eq, Option.bind_eq_bind, Option.bind_some]
    cases UTF8.nextN f.value f.offLeft.toNat f.value.length (f.offX ev) with
    | none =>
        constructor
        · rintro ⟨_, hf'⟩
          cases hf'
        · intro hf'
          cases hf'
    | some r => exact ⟨fun _ => rfl, fun _ => ⟨_, rfl⟩⟩
  have hleft := h.left_nonneg
  rw [hsome]
  by_cases hx : 0 ≤ f.offX ev
  · obtain ⟨r, hr, -⟩ := UTF8.nextN_forward h.left_toNat_le hx
    rw [hr]
    exact ⟨fun _ => Or.inl hx, fun _ => rfl⟩
  · rw [UTF8.nextN_backward_end_isSome_iff h.left_toNat_le (by omega)]
    have hend : f.offLeft.toNat = f.value.length ↔ f.offLeft = f.value.length := by omega
    rw [hend, eq_false hx, false_or]

theorem Within.moveCursor {f f' : TextField} (h : f.Within) {ev : Event}
    (hmove : f.moveCursor ev = some f') : f'.Within := by
  rw [TextField.moveCursor, h.left_eq, Option.bind_eq_bind, Option.bind_some,
    Option.bind_eq_some_iff] at hmove
  obtain ⟨r, hr, hf'⟩ := hmove
  cases hf'
  refine h.withCursor ?_
  by_cases hx : 0 ≤ f.offX ev
  · obtain ⟨r', hr', -, hle⟩ := UTF8.nextN_forward h.left_toNat_le hx
    rw [hr'] at hr
    cases hr
    exact hle
  · rw [UTF8.nextN, if_neg hx] at hr
    exact Nat.le_trans (UTF8.nextBackward_le _ hr) h.left_toNat_le

theorem Within.withDrag {f : TextField} (h : f.Within) (x : Bool) : Within { f with drag := x } :=
  ⟨h.width, h.left_nonneg, h.left_le, h.cursor_nonneg, h.cursor_le⟩

theorem Within.handleMouse {f : TextField} (h : f.Within) (ev : Event) :
    ((∃ r, f.handleMouse ev = some r) ↔ (f.moves ev → 0 ≤ f.offX ev ∨
        f.offLeft = f.value.length ∨ -f.offX ev ≤ len (f.value.take f.offLeft.toNat))) ∧
      ∀ r, f.handleMouse ev = some r → r.1.Within := by
  have hdrag := h.withDrag (f.dragAfter ev)
  rw [TextField.handleMouse, Option.bind_eq_bind]
  by_cases hmove : f.moves ev = true
  · have hmoves := hdrag.moveCursor_iff ev
    rw [if_pos hmove, eq_true hmove, true_imp_iff]
    refine ⟨Iff.trans ?_ hmoves, fun r hr => ?_⟩
    · constructor
      · rintro ⟨r, hr⟩
        obtain ⟨f', hf', -⟩ := Option.bind_eq_some_iff.mp hr
        exact ⟨f', hf'⟩
      · rintro ⟨f', hf'⟩
        rw [hf']
        exact ⟨_, rfl⟩
    · obtain ⟨f', hf', hr⟩ := Option.bind_eq_some_iff.mp hr
      cases hr
      exact hdrag.moveCursor hf'
  · rw [if_neg hmove]
    refine ⟨⟨fun _ hno => absurd hno hmove, fun _ => ⟨_, rfl⟩⟩, fun r hr => ?_⟩
    cases hr
    exact hdrag

theorem Within.handleEvent {f : TextField} (h : f.Within) (ev : Event) :
    ((∃ r, f.handleEvent ev = some r) ↔ f.MoveWithin ev) ∧
      ∀ r, f.handleEvent ev = some r → r.1.Within := by
  -- the field does not change
  have hsame : ∀ {handled : Bool} {cond : Prop}, cond →
      ((∃ r, some (f, handled, (none : Option Callout)) = some r) ↔ cond) ∧
        ∀ r, some (f, handled, (none : Option Callout)) = some r → r.1.Within := by
    intro handled cond hcond
    refine ⟨⟨fun _ => hcond, fun _ => ⟨_, rfl⟩⟩, fun r hr => ?_⟩
    cases hr
    exact h
  unfold TextField.handleEvent
  split
  · next hmouse =>
      split
      · next henabled =>
          have hcond : f.MoveWithin ev ↔ (f.moves ev → 0 ≤ f.offX ev ∨
              f.offLeft = f.value.length ∨ -f.offX ev ≤ len (f.value.take f.offLeft.toNat)) :=
            ⟨fun hev => hev hmouse henabled, fun hev _ _ => hev⟩
          rw [hcond]
          exact h.handleMouse ev
      · next hdisabled => exact hsame fun _ hno => absurd hno hdisabled
  · next hkey =>
      have hcond : f.MoveWithin ev := fun hno => absurd hno hkey
      split
      · split
        · exact hsame hcond
        · obtain ⟨r, hr, hwithin⟩ := h.handleKey ev.type
          rw [hr]
          refine ⟨⟨fun _ => hcond, fun _ => ⟨_, rfl⟩⟩, fun r' hr' => ?_⟩
          cases hr'
          exact hwithin
      · exact hsame hcond

theorem setValue_within {f : TextField} (h : f.Within) (x : Bytes) :
    ∃ f', f.setValue x = some f' ∧ f'.Within := by
  unfold setValue
  split
  · exact ⟨f, rfl, h⟩
  · exact offUpdate_within h.width

/-- An input leaves the offsets in the text, and its walks stay there if the mouse is not too far
to the left. -/
theorem Within.step {f : TextField} (h : f.Within) (i : Input) :
    ((∃ f', f.step i = some f') ↔ f.InputWithin i) ∧ ∀ f', f.step i = some f' → f'.Within := by
  -- an input that is no event
  have hother : ∀ {r : Option TextField}, i.event? = none → (∃ f', r = some f' ∧ f'.Within) →
      ((∃ f', r = some f') ↔ f.InputWithin i) ∧ ∀ f', r = some f' → f'.Within := by
    rintro r hi ⟨f', rfl, hwithin⟩
    refine ⟨⟨fun _ ev hev => ?_, fun _ => ⟨f', rfl⟩⟩, fun g hg => ?_⟩
    · rw [hi] at hev
      cases hev
    · cases hg
      exact hwithin
  cases i with
  | event ev =>
      obtain ⟨hiff, hwithin⟩ := h.handleEvent ev
      have hcond : f.InputWithin (.event ev) ↔ f.MoveWithin ev :=
        ⟨fun hall => hall ev rfl, fun hev ev' hev' => by cases hev'; exact hev⟩
      rw [hcond, ← hiff]
      refine ⟨⟨?_, fun ⟨r, hr⟩ => ⟨r.1, by rw [TextField.step, hr]; rfl⟩⟩, fun f' hf' => ?_⟩
      · rintro ⟨f', hf'⟩
        obtain ⟨r, hr, -⟩ := Option.map_eq_some_iff.mp hf'
        exact ⟨r, hr⟩
      · obtain ⟨r, hr, rfl⟩ := Option.map_eq_some_iff.mp hf'
        exact hwithin r hr
  | layout => exact hother rfl (layout_within h.width)
  | draw =>
      obtain ⟨r, hr⟩ := draw_isSome h
      exact hother rfl ⟨f, by rw [TextField.step, hr]; rfl, h⟩
  | setValue x => exact hother rfl (setValue_within h x)
  | seekRight => exact hother rfl (offUpdate_within h.width)
  | setAlign x =>
      exact hother rfl ⟨_, rfl, h.width, h.left_nonneg, h.left_le, h.cursor_nonneg, h.cursor_le⟩
  | setSize x =>
      exact hother rfl
        ⟨_, rfl, Int.le_max_left _ _, h.left_nonneg, h.left_le, h.cursor_nonneg, h.cursor_le⟩
  | setFocused x =>
      exact hother rfl ⟨_, rfl, h.width, h.left_nonneg, h.left_le, h.cursor_nonneg, h.cursor_le⟩
  | setEnabledWindow x =>
      exact hother rfl ⟨_, rfl, h.width, h.left_nonneg, h.left_le, h.cursor_nonneg, h.cursor_le⟩

/-- All walks of a run stay in the text, and the offsets with them, exactly where no event of the
mouse that moves the cursor is too far to the left. -/
theorem run_within_iff {f : TextField} (h : f.Within) (inputs : List Input) :
    (∃ f', run step f inputs = some f' ∧ f'.Within) ↔ StepsMeet step InputWithin f inputs :=
  Run.exists_iff (fun _ i _ hs => (hs.step i).2 _) (fun _ i hs => (hs.step i).1) h

/-- A field of three columns, centred. -/
def centred : TextField where
  size := ⟨3, 1⟩
  hitTestInset := ⟨0, 0, 0, 0⟩
  enabledWindow := true
  value := []
  align := .center
  drag := false
  offLeft := 0
  offCursor := 0
  focused := true
  cursorState := ⟨false, ⟨0, 0⟩⟩

/-- The mouse button goes down in a column. -/
def press (x : Int) : Event := ⟨Event.typeMouse, ⟨⟨x, 0⟩, true, false, false⟩⟩

/-- The mouse goes down on the text, and is dragged past its end. -/
theorem run_within_press : ∃ f', run step centred
    [.setValue [97], .layout, .event (press 1), .layout,
      .event ⟨Event.typeMouse, ⟨⟨9, 0⟩, false, false, false⟩⟩, .draw] = some f' ∧ f'.Within :=
  (run_within_iff ⟨by decide, by decide, by decide, by decide, by decide⟩ _).mpr (by decide)

/-- A press in the column before the text walks to before its first byte. -/
theorem press_leaves : centred.hitTest ⟨0, 0⟩ = true ∧
    (run step centred [.setValue [97], .layout]).isSome = true ∧
    run step centred [.setValue [97], .layout, .event (press 0)] = none := by
  decide

end TextField
end Ui
end Debase
