import Debase.Ui.RevColumn

/-!
# Menus

`ui/Menu.h`: a menu measures how many of its buttons fit into a height, and lays out its buttons
in the size it has.  The first goes by what is left of the height, the second by where a button
ends; both find the same buttons.
-/

namespace Debase
namespace Ui

/-- `Edges`. -/
structure Edges where
  l : Int
  r : Int
  t : Int
  b : Int
deriving DecidableEq

namespace Rect

/-- `l()`. -/
def l (r : Rect) : Int := r.origin.x

/-- `r()`. -/
def r (r : Rect) : Int := r.origin.x + r.size.x

/-- `t()`. -/
def t (r : Rect) : Int := r.origin.y

/-- `b()`. -/
def b (r : Rect) : Int := r.origin.y + r.size.y

end Rect

namespace Menu

/-- `_BorderSize`. -/
def borderSize : Int := 1

/-- `_InsetX`. -/
def insetX : Int := 1

/-- `_SeparatorHeight`. -/
def separatorHeight : Int := 1

/-- `Padding()`. -/
def padding : Size := ⟨2 * (borderSize + insetX), 2 * borderSize⟩

/-- The rows of the separator above a button; the first one has none. -/
def gap (first : Bool) : Int := if first then 0 else separatorHeight

/-- The loop of `sizeIntrinsic` over the sizes of the buttons: the height, and how many buttons
were added to it. -/
def sizeLoop (constraintY : Int) : List Size → Int → Int → Bool → Int × Nat
  | [], height, _, _ => (height, 0)
  | button :: buttons, height, rem, first =>
      let add := gap first + button.y
      if constraintY ≠ 0 ∧ add > rem then (height, 0)
      else
        let r := sizeLoop constraintY buttons (height + add) (rem - add) false
        (r.1, r.2 + 1)

/-- `sizeIntrinsic`.  The first button sets the width. -/
def sizeIntrinsic (constraint : Size) (buttons : List Size) : Size :=
  let width := (match buttons with
    | [] => 0
    | button :: _ => button.x) + padding.x
  ⟨width, (sizeLoop constraint.y buttons padding.y (constraint.y - padding.y) true).1⟩

/-- How many buttons `sizeIntrinsic` found to fit. -/
def fitting (constraint : Size) (buttons : List Size) : Nat :=
  (sizeLoop constraint.y buttons padding.y (constraint.y - padding.y) true).2

/-- `View::size(const Size& x)`: no size is negative. -/
def setSize (x : Size) : Size := ⟨max 0 x.x, max 0 x.y⟩

/-- `View::origin(const Point& x)`: no coordinate is negative. -/
def setOrigin (x : Point) : Point := ⟨max 0 x.x, max 0 x.y⟩

/-- A button as `layout` leaves it. -/
structure Placed where
  frame : Rect
  hitTestInset : Edges
  visible : Bool
deriving DecidableEq

/-- The loop of `layout`. -/
def layoutLoop (x ymax : Int) : List Size → Int → Bool → Bool → List Placed
  | [], _, _, _ => []
  | button :: buttons, y, first, shown =>
      let y := y + gap first
      let origin := setOrigin ⟨x, y⟩
      let y := y + button.y
      let hitTestInset : Edges :=
        ⟨-(borderSize + insetX), -(borderSize + insetX), if first then -1 else 0, -1⟩
      -- once a button ends below the last row, it and those after it are hidden
      let shown := shown && decide (y ≤ ymax)
      ⟨⟨origin, button⟩, hitTestInset, shown⟩ :: layoutLoop x ymax buttons y false shown

/-- `layout` in a menu of the size: the frame of the title, and the buttons. -/
def layout (size : Size) (buttons : List Size) : Rect × List Placed :=
  (⟨⟨0, 0⟩, ⟨size.x, 1⟩⟩,
    layoutLoop (borderSize + insetX) (size.y - borderSize) buttons borderSize true true)

/-- The lines that `draw` draws: where each begins, and its length. -/
def separatorLines (size : Size) (buttons : List Placed) : List (Point × Int) :=
  (buttons.filter Placed.visible).map fun button => (⟨0, button.frame.b⟩, size.x)

/-! ## Both loops stop at the same button -/

/-- The buttons have a height. -/
def Tall (buttons : List Size) : Prop := ∀ button ∈ buttons, 0 < button.y

theorem gap_nonneg (first : Bool) : 0 ≤ gap first := by
  cases first <;> decide

theorem sizeLoop_ge (constraintY : Int) {buttons : List Size} (h : Tall buttons)
    (height rem : Int) (first : Bool) :
    height ≤ (sizeLoop constraintY buttons height rem first).1 := by
  induction buttons generalizing height rem first with
  | nil => exact Int.le_refl _
  | cons button buttons ih =>
      obtain ⟨hbutton, hrest⟩ := List.forall_mem_cons.mp h
      rw [sizeLoop]
      split
      · exact Int.le_refl _
      · have hgap := gap_nonneg first
        exact Int.le_trans (by omega) (ih hrest _ _ false)

theorem layoutLoop_hidden (x ymax : Int) (buttons : List Size) (y : Int) (first : Bool) :
    (layoutLoop x ymax buttons y first false).map Placed.visible =
      List.replicate buttons.length false := by
  induction buttons generalizing y first with
  | nil => rfl
  | cons button buttons ih =>
      rw [layoutLoop, List.map_cons, Bool.false_and, ih]
      rfl

/-- The buttons that are shown where the last row is where the measured height ends. -/
theorem layoutLoop_visible (constraintY : Int) {buttons : List Size} (h : Tall buttons)
    (x height rem : Int) (first : Bool) :
    (layoutLoop x ((sizeLoop constraintY buttons height rem first).1 - borderSize) buttons
        (height - borderSize) first true).map Placed.visible =
      List.replicate (sizeLoop constraintY buttons height rem first).2 true ++
        List.replicate (buttons.length - (sizeLoop constraintY buttons height rem first).2)
          false := by
  induction buttons generalizing height rem first with
  | nil => rfl
  | cons button buttons ih =>
      obtain ⟨hbutton, hrest⟩ := List.forall_mem_cons.mp h
      have hgap := gap_nonneg first
      rw [layoutLoop, List.map_cons]
      by_cases hfull : constraintY ≠ 0 ∧ gap first + button.y > rem
      · -- the button does not fit, and ends below the last row
        rw [sizeLoop, if_pos hfull]
        have hbelow : ¬(height - borderSize + gap first + button.y ≤ height - borderSize) := by
          omega
        rw [decide_eq_false hbelow, Bool.and_false, layoutLoop_hidden]
        rfl
      · rw [sizeLoop, if_neg hfull]
        have hge := sizeLoop_ge constraintY hrest
          (height + (gap first + button.y)) (rem - (gap first + button.y)) false
        have hfits : height - borderSize + gap first + button.y ≤
            (sizeLoop constraintY buttons (height + (gap first + button.y))
              (rem - (gap first + button.y)) false).1 - borderSize := by
          omega
        have hnext : height - borderSize + gap first + button.y =
            height + (gap first + button.y) - borderSize := by
          omega
        dsimp only
        rw [decide_eq_true hfits, Bool.and_true, hnext, ih hrest, List.length_cons,
          Nat.succ_sub_succ]
        rfl

/-! ## Where the buttons are -/

/-- The rows of buttons and of the separators between them, from the top: each from its first row
to the one after its last. -/
def stack : List Placed → List (Int × Int)
  | [] => []
  | [button] => [(button.frame.t, button.frame.b)]
  | button :: next :: buttons =>
      (button.frame.t, button.frame.b) :: (button.frame.b, next.frame.t) :: stack (next :: buttons)

/-- The buttons that are shown. -/
def shown (buttons : List Placed) : List Placed := buttons.filter Placed.visible

theorem shown_hidden (x ymax : Int) (buttons : List Size) (y : Int) (first : Bool) :
    shown (layoutLoop x ymax buttons y first false) = [] := by
  induction buttons generalizing y first with
  | nil => rfl
  | cons button buttons ih =>
      rw [layoutLoop, shown, List.filter_cons_of_neg (by simp)]
      exact ih _ _

/-- The first of the buttons that are shown. -/
theorem shown_layoutLoop {x ymax : Int} {button : Size} (buttons : List Size) {y : Int}
    (hy : 0 ≤ y) (first : Bool) :
    shown (layoutLoop x ymax (button :: buttons) y first true) =
      if y + gap first + button.y ≤ ymax then
        ⟨⟨⟨max 0 x, y + gap first⟩, button⟩,
            ⟨-(borderSize + insetX), -(borderSize + insetX), if first then -1 else 0, -1⟩, true⟩ ::
          shown (layoutLoop x ymax buttons (y + gap first + button.y) false true)
      else [] := by
  have horigin : setOrigin ⟨x, y + gap first⟩ = ⟨max 0 x, y + gap first⟩ := by
    have hgap := gap_nonneg first
    rw [setOrigin, Int.max_eq_right (show (0 : Int) ≤ y + gap first by omega)]
  rw [layoutLoop, horigin, Bool.true_and]
  by_cases hfits : y + gap first + button.y ≤ ymax
  · rw [if_pos hfits, decide_eq_true hfits]
    exact List.filter_cons_of_pos rfl
  · rw [if_neg hfits, decide_eq_false hfits, shown, List.filter_cons_of_neg (by simp)]
    exact shown_hidden x ymax buttons _ false

/-- The rows of a list of buttons are in order, from a first row to the one after the last. -/
structure Stacked (first last : Int) (buttons : List Placed) : Prop where
  inside : ∀ rows ∈ stack buttons, first ≤ rows.1 ∧ rows.1 < rows.2 ∧ rows.2 ≤ last
  ordered : (stack buttons).Pairwise fun rows rows' => rows.2 ≤ rows'.1
  top : ∀ button ∈ buttons.head?, button.frame.t = first

theorem Stacked.nil (first last : Int) : Stacked first last [] where
  inside := List.forall_mem_nil _
  ordered := .nil
  top _ hno := by cases hno

theorem Stacked.last_ge {first last : Int} {next : Placed} {buttons : List Placed}
    (h : Stacked first last (next :: buttons)) : first < last := by
  have hmem : (next.frame.t, next.frame.b) ∈ stack (next :: buttons) := by
    cases buttons <;> exact List.mem_cons_self
  obtain ⟨hfirst, hrows, hlast⟩ := h.inside _ hmem
  dsimp only at *
  omega

/-- A button in front, with a separator of one row. -/
theorem Stacked.cons {first last : Int} {button : Placed} {buttons : List Placed}
    (hfirst : button.frame.t = first) (htall : button.frame.t < button.frame.b)
    (hlast : button.frame.b ≤ last)
    (h : Stacked (button.frame.b + separatorHeight) last buttons) :
    Stacked first last (button :: buttons) := by
  subst hfirst
  rcases buttons with _ | ⟨next, buttons⟩
  · refine ⟨List.forall_mem_singleton.mpr ⟨Int.le_refl _, htall, hlast⟩,
      List.pairwise_singleton _ _,
      ?_⟩
    rintro _ ⟨⟩
    rfl
  · have htop := h.top next rfl
    have hroom := h.last_ge
    rw [separatorHeight] at htop hroom
    have hbelow : ∀ rows ∈ stack (next :: buttons), button.frame.b + 1 ≤ rows.1 := fun rows hrows =>
      (h.inside rows hrows).1
    refine ⟨?_, ?_, ?_⟩
    · refine List.forall_mem_cons.mpr ⟨⟨Int.le_refl _, htall, hlast⟩,
        List.forall_mem_cons.mpr ⟨?_, fun rows hrows => ?_⟩⟩
      · dsimp only
        omega
      · have hrow := h.inside rows hrows
        have hnext := hbelow rows hrows
        omega
    · refine List.pairwise_cons.mpr ⟨List.forall_mem_cons.mpr ⟨Int.le_refl _, fun rows hrows => ?_⟩,
        List.pairwise_cons.mpr ⟨fun rows hrows => ?_, h.ordered⟩⟩
      · have hnext := hbelow rows hrows
        dsimp only
        omega
      · have hnext := hbelow rows hrows
        dsimp only
        omega
    · rintro _ ⟨⟩
      rfl

theorem stacked_layoutLoop {buttons : List Size} (h : Tall buttons) (x ymax : Int) {y : Int}
    (hy : 0 ≤ y) (first : Bool) :
    Stacked (y + gap first) ymax (shown (layoutLoop x ymax buttons y first true)) := by
  induction buttons generalizing y first with
  | nil => exact .nil _ _
  | cons button buttons ih =>
      obtain ⟨hbutton, hrest⟩ := List.forall_mem_cons.mp h
      have hgap := gap_nonneg first
      rw [shown_layoutLoop buttons hy]
      split
      · next hfits =>
          have hstack := ih hrest (show 0 ≤ y + gap first + button.y by omega) false
          refine .cons rfl ?_ hfits hstack
          show y + gap first < y + gap first + button.y
          omega
      · exact .nil _ _

/-- The last button that is shown ends where the measured height ends. -/
theorem shown_last (constraintY : Int) {buttons : List Size} (h : Tall buttons) (x : Int)
    {height : Int} (hheight : borderSize ≤ height) (rem : Int) (first : Bool) :
    let last := (sizeLoop constraintY buttons height rem first).1
    let placed := shown (layoutLoop x (last - borderSize) buttons (height - borderSize) first true)
    (placed = [] → last = height) ∧
      ∀ button ∈ placed.getLast?, button.frame.b = last - borderSize := by
  induction buttons generalizing height rem first with
  | nil =>
      refine ⟨fun _ => rfl, fun _ hno => ?_⟩
      cases hno
  | cons button buttons ih =>
      obtain ⟨hbutton, hrest⟩ := List.forall_mem_cons.mp h
      have hgap := gap_nonneg first
      have hy : 0 ≤ height - borderSize := by omega
      dsimp only
      rw [shown_layoutLoop buttons hy, sizeLoop]
      by_cases hfull : constraintY ≠ 0 ∧ gap first + button.y > rem
      · rw [if_pos hfull, if_neg (by omega)]
        refine ⟨fun _ => rfl, fun _ hno => ?_⟩
        cases hno
      · have hge := sizeLoop_ge constraintY hrest
          (height + (gap first + button.y)) (rem - (gap first + button.y)) false
        have hnext : height - borderSize + gap first + button.y =
            height + (gap first + button.y) - borderSize := by
          omega
        obtain ⟨hnone, hlast⟩ := ih hrest
          (show borderSize ≤ height + (gap first + button.y) by omega)
          (rem - (gap first + button.y)) false
        rw [if_neg hfull, hnext]
        dsimp only at hnone hlast ⊢
        rw [if_pos (by omega)]
        refine ⟨fun hno => absurd hno (List.cons_ne_nil _ _), fun b hb => ?_⟩
        rw [List.getLast?_cons] at hb
        generalize shown (layoutLoop x _ buttons _ false true) = below at hnone hlast hb
        rcases hend : below.getLast? with _ | l
        · rw [hend] at hb
          cases hb
          have hheight := hnone (List.getLast?_eq_none_iff.mp hend)
          show height - borderSize + gap first + button.y = _
          omega
        · rw [hend] at hb
          cases hb
          exact hlast l hend

/-! ## A menu of its own size -/

/-- The size that a menu is given. -/
def ownSize (constraint : Size) (buttons : List Size) : Size :=
  setSize (sizeIntrinsic constraint buttons)

/-- What the layout of a menu of its own size is like. -/
structure LaidOut (constraint : Size) (buttons : List Size) (placed : List Placed) : Prop where
  /-- The buttons that are shown are those that were found to fit. -/
  visible : placed.map Placed.visible =
    List.replicate (fitting constraint buttons) true ++
      List.replicate (buttons.length - fitting constraint buttons) false
  /-- They and the separators between them are inside the border, one below the other. -/
  rows : ∀ rows ∈ stack (shown placed), borderSize ≤ rows.1 ∧ rows.1 < rows.2 ∧
    rows.2 ≤ (ownSize constraint buttons).y - borderSize
  ordered : (stack (shown placed)).Pairwise fun rows rows' => rows.2 ≤ rows'.1
  /-- A button that is at most one column wider than the first is inside the border. -/
  columns : ∀ first ∈ buttons.head?, ∀ button ∈ shown placed,
    button.frame.size.x ≤ first.x + 1 →
      borderSize ≤ button.frame.l ∧ button.frame.r ≤ (ownSize constraint buttons).x - borderSize
  /-- The line below the last button that is shown is on the border, which is drawn over it. -/
  lines : ∀ line ∈ (separatorLines (ownSize constraint buttons) placed).getLast?,
    line.1.y = (ownSize constraint buttons).y - borderSize

theorem frame_l_of_layoutLoop {x ymax : Int} (hx : 0 ≤ x) {buttons : List Size} {y : Int}
    {first visible : Bool} {button : Placed}
    (h : button ∈ layoutLoop x ymax buttons y first visible) : button.frame.l = x := by
  induction buttons generalizing y first visible with
  | nil => cases h
  | cons size buttons ih =>
      rw [layoutLoop] at h
      rcases List.mem_cons.mp h with rfl | h
      · exact Int.max_eq_right hx
      · exact ih h

theorem layout_laidOut (constraint : Size) {buttons : List Size} (h : Tall buttons) :
    LaidOut constraint buttons (layout (ownSize constraint buttons) buttons).2 := by
  have hheight := sizeLoop_ge constraint.y h padding.y
    (constraint.y - padding.y) true
  have hsize : (ownSize constraint buttons).y = (sizeIntrinsic constraint buttons).y :=
    Int.max_eq_right (Int.le_trans (by decide) hheight)
  have hstacked := stacked_layoutLoop h (borderSize + insetX)
    ((ownSize constraint buttons).y - borderSize) (show 0 ≤ borderSize by decide) true
  refine ⟨?_, hstacked.inside, hstacked.ordered, ?_, ?_⟩
  · have hvisible := layoutLoop_visible constraint.y h (borderSize + insetX)
      padding.y (constraint.y - padding.y) true
    rw [layout, hsize]
    exact hvisible
  · intro first hfirst button hbutton hwide
    have hl : button.frame.l = borderSize + insetX :=
      frame_l_of_layoutLoop (by decide) (List.mem_of_mem_filter hbutton)
    have hr : button.frame.r = button.frame.l + button.frame.size.x := rfl
    have hwidth : first.x + padding.x ≤ (ownSize constraint buttons).x := by
      rcases buttons with _ | ⟨size, buttons⟩
      · cases hfirst
      · cases hfirst
        exact Int.le_max_right _ _
    have hpadding : padding.x = 4 := rfl
    rw [hr, hl, borderSize, insetX]
    exact ⟨by decide, by omega⟩
  · intro line hline
    have hlast := (shown_last constraint.y h (borderSize + insetX)
      (show borderSize ≤ padding.y by decide) (constraint.y - padding.y) true).2
    rw [separatorLines, List.getLast?_map] at hline
    obtain ⟨button, hbutton, rfl⟩ := Option.map_eq_some_iff.mp hline
    rw [layout, hsize] at hbutton
    rw [hsize]
    exact hlast button hbutton

/-- Two buttons that fit below a third that does not. -/
theorem layout_ownSize_three :
    fitting ⟨80, 6⟩ [⟨12, 1⟩, ⟨12, 1⟩, ⟨12, 3⟩] = 2 ∧
      LaidOut ⟨80, 6⟩ [⟨12, 1⟩, ⟨12, 1⟩, ⟨12, 3⟩]
        (layout (ownSize ⟨80, 6⟩ [⟨12, 1⟩, ⟨12, 1⟩, ⟨12, 3⟩]) [⟨12, 1⟩, ⟨12, 1⟩, ⟨12, 3⟩]).2 :=
  ⟨by decide, layout_laidOut ⟨80, 6⟩ (by unfold Tall; decide)⟩

/-- A second button that is wider than the first is shown across the border. -/
theorem layout_wideButton :
    Tall [⟨5, 1⟩, ⟨10, 1⟩] ∧
      ∃ button ∈ shown (layout (ownSize ⟨80, 0⟩ [⟨5, 1⟩, ⟨10, 1⟩]) [⟨5, 1⟩, ⟨10, 1⟩]).2,
        ¬button.frame.r ≤ (ownSize ⟨80, 0⟩ [⟨5, 1⟩, ⟨10, 1⟩]).x - borderSize :=
  ⟨by unfold Tall; decide, by decide⟩

end Menu
end Ui
end Debase
