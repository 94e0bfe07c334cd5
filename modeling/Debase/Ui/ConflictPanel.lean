import Debase.Git.Conflict
import Debase.Ui.ContentText
import Debase.Ui.Menu

/-!
# The panel of a conflict

`UI::ConflictPanel` shows the two sides of a file next to each other, scrolled to one conflict
hunk.  Which side is on the left is the layout's choice, and the names, the texts and the buttons
all follow it.

The text of a side is drawn in two loops, from the hunk downwards and from the hunk upwards.
What they show is a window of the side: consecutive lines of it, from the first row of the
rectangle on.
-/

namespace Debase
namespace Ui

open Toastbox Git

/-! ## The panel -/

/-- `ConflictPanel::Layout`. -/
inductive Layout where
  | leftOurs
  | rightOurs
deriving DecidableEq

/-- `ConflictPanel::Result`. -/
inductive Result where
  | chooseOurs
  | chooseTheirs
  | openInEditor
  | cancel
deriving DecidableEq

/-- The buttons of the panel. -/
inductive PanelButton where
  | chooseLeft
  | chooseRight
  | openInEditor
  | cancel
deriving DecidableEq

/-- `ConflictPanel`. -/
structure ConflictPanel where
  layout : Layout
  title : Bytes
  refNameOurs : Bytes
  refNameTheirs : Bytes
  fileConflict : Conflict
  hunkIdx : Nat

/-- What a row shows: a line, of the hunk itself or around it, or that the hunk has none. -/
inductive RowText where
  | line (main : Bool) (str : Bytes)
  | placeholder (noFile : Bool)
deriving DecidableEq

/-- A row that is drawn. -/
structure Row where
  y : Int
  text : RowText
deriving DecidableEq

/-- `_Inset`. -/
def ConflictPanel.inset : Size := ⟨3, 1⟩

/-- `_ContentInsetTop`. -/
def ConflictPanel.contentInsetTop : Int := 1

/-- `_ContentInsetBottom`. -/
def ConflictPanel.contentInsetBottom : Int := 8

namespace ConflictPanel

variable (p : ConflictPanel)

/-- `sizeIntrinsic`, of a panel on a screen. -/
def sizeIntrinsic (constraint : Size) : Size :=
  ⟨constraint.x - min 10 (constraint.x.tdiv 5), constraint.y - min 6 (constraint.y.tdiv 5)⟩

/-- `_SeparatorX`. -/
def separatorX (bounds : Size) : Int := bounds.x.tdiv 2

/-- The height of both content rectangles. -/
def contentHeight (bounds : Size) : Int :=
  bounds.y - 2 * inset.y - contentInsetTop - contentInsetBottom

/-- `_ContentRectLeft`. -/
def contentRectLeft (bounds : Size) : Rect :=
  ⟨⟨inset.x, inset.y + contentInsetTop⟩,
    ⟨separatorX bounds - inset.x - 2, contentHeight bounds⟩⟩

/-- `_ContentRectRight`. -/
def contentRectRight (bounds : Size) : Rect :=
  ⟨⟨separatorX bounds + 3, inset.y + contentInsetTop⟩,
    ⟨bounds.x - (separatorX bounds + 3) - inset.x, contentHeight bounds⟩⟩

/-- The rectangle of a side. -/
def contentRect (bounds : Size) (left : Bool) : Rect :=
  if left then contentRectLeft bounds else contentRectRight bounds

/-- The text of `_refNameLeft` or `_refNameRight`. -/
def refName (left : Bool) : Bytes :=
  match p.layout, left with
  | .leftOurs, true => p.refNameOurs
  | .leftOurs, false => p.refNameTheirs
  | .rightOurs, true => p.refNameTheirs
  | .rightOurs, false => p.refNameOurs

/-- `_done`. -/
def done : PanelButton → Result
  | .chooseLeft => if p.layout = .leftOurs then .chooseOurs else .chooseTheirs
  | .chooseRight => if p.layout = .leftOurs then .chooseTheirs else .chooseOurs
  | .openInEditor => .openInEditor
  | .cancel => .cancel

/-- `_hunkLinesGet`. -/
def hunkLinesGet (hunk : Hunk) (left : Bool) : List Bytes :=
  match hunk.type with
  | .normal => hunk.normal
  | .conflict =>
      match p.layout with
      | .leftOurs => if left then hunk.linesOurs else hunk.linesTheirs
      | .rightOurs => if left then hunk.linesTheirs else hunk.linesOurs

/-! ### The rows of a side -/

/-- The inner loop of `_maxLinesAboveConflict`. -/
def countLines (h : Int) : List Bytes → Int → Int
  | [], count => count
  | _ :: lines, count => if count < h then countLines h lines (count + 1) else count

/-- The loop of `_maxLinesAboveConflict` over the hunks above, the nearest first. -/
def countHunks (h : Int) (left : Bool) : List Hunk → Int → Int
  | [], count => count
  | hunk :: hunks, count =>
      if count < h then countHunks h left hunks (countLines h (p.hunkLinesGet hunk left) count)
      else count

/-- `_maxLinesAboveConflict`, of a panel of the height `h`. -/
def maxLinesAboveConflict (h : Int) (left : Bool) : Int :=
  p.countHunks h left (p.fileConflict.hunks.take p.hunkIdx).reverse 0

/-- `mainConflictLines`. -/
def mainConflictLines (left : Bool) : List Bytes :=
  ((p.fileConflict.hunks[p.hunkIdx]?).map fun hunk => p.hunkLinesGet hunk left).getD []

/-- `mainConflictStartY`. -/
def mainConflictStartY (bounds : Size) (left : Bool) : Int :=
  let rect := contentRect bounds left
  let maxLinesAboveConflict :=
    min (p.maxLinesAboveConflict bounds.y true) (p.maxLinesAboveConflict bounds.y false)
  rect.t + min maxLinesAboveConflict
    (max 0 ((rect.size.y - ((p.mainConflictLines left).length : Int)).tdiv 2))

/-- The lines of one hunk from the row `offY` down, and the row after them. -/
def lineRows (main : Bool) (bottom : Int) : List Bytes → Int → List Row × Int
  | [], offY => ([], offY)
  | line :: lines, offY =>
      if offY < bottom then
        let rest := lineRows main bottom lines (offY + 1)
        (⟨offY, .line main line⟩ :: rest.1, rest.2)
      else ([], offY)

/-- Both sides of the file are asked, as it may be missing on either. -/
def noFile : Bool := p.fileConflict.noFile .ours || p.fileConflict.noFile .theirs

/-- The main conflict section, and the lines beneath it. -/
def rowsDown (left : Bool) (bottom : Int) : Bool → List Hunk → Int → List Row
  | _, [], _ => []
  | main, hunk :: hunks, offY =>
      if offY < bottom then
        let lines := p.hunkLinesGet hunk left
        if !main || !lines.isEmpty then
          let rows := lineRows main bottom lines offY
          rows.1 ++ rowsDown left bottom false hunks rows.2
        else ⟨offY, .placeholder p.noFile⟩ :: rowsDown left bottom false hunks (offY + 1)
      else []

/-- The lines of one hunk from the row `offY` up, the last line first. -/
def lineRowsUp (top : Int) : List Bytes → Int → List Row × Int
  | [], offY => ([], offY)
  | line :: lines, offY =>
      if top ≤ offY then
        let rest := lineRowsUp top lines (offY - 1)
        (⟨offY, .line false line⟩ :: rest.1, rest.2)
      else ([], offY)

/-- The lines above the main conflict section, the nearest hunk first. -/
def rowsUp (left : Bool) (top : Int) : List Hunk → Int → List Row
  | [], _ => []
  | hunk :: hunks, offY =>
      if top ≤ offY then
        let rows := lineRowsUp top (p.hunkLinesGet hunk left).reverse offY
        rows.1 ++ rowsUp left top hunks rows.2
      else []

/-- The rows that `_contentTextDraw` draws on a side, in this order. -/
def contentRows (bounds : Size) (left : Bool) : List Row :=
  let rect := contentRect bounds left
  let mainConflictStartY := p.mainConflictStartY bounds left
  p.rowsDown left rect.b true (p.fileConflict.hunks.drop p.hunkIdx) mainConflictStartY ++
    p.rowsUp left rect.t (p.fileConflict.hunks.take p.hunkIdx).reverse (mainConflictStartY - 1)

/-- A line as the bytes before the first zero, which is where `c_str` ends. -/
def cStr (line : Bytes) : Bytes := line.takeWhile (· ≠ 0)

/-- The text of a row.  An `int` is not too long for a string; but a negative one that is converted
to `size_t` is, and throws. -/
def rowText (width : Int) : RowText → Option Bytes
  | .line _ str => if width < 0 then none else contentText width.toNat (cStr str)
  | .placeholder noFile => some (ascii (if noFile then " no file " else " empty "))

/-- `_contentTextDraw` on both sides, as `draw` calls it. -/
def draw (bounds : Size) : Option (List (Int × Bytes) × List (Int × Bytes)) := do
  let side (left : Bool) := (p.contentRows bounds left).mapM fun row =>
    (rowText (contentRect bounds left).size.x row.text).map fun text => (row.y, text)
  let left ← side true
  let right ← side false
  pure (left, right)

/-! ## Rows one below the other -/

/-- The rows from `y` down. -/
def place : Int → List RowText → List Row
  | _, [] => []
  | y, text :: texts => ⟨y, text⟩ :: place (y + 1) texts

/-- The rows from `y` up. -/
def placeUp : Int → List RowText → List Row
  | _, [] => []
  | y, text :: texts => ⟨y, text⟩ :: placeUp (y - 1) texts

theorem place_append (y : Int) (texts texts' : List RowText) :
    place y (texts ++ texts') = place y texts ++ place (y + texts.length) texts' := by
  induction texts generalizing y with
  | nil => simp [place]
  | cons text texts ih =>
      rw [List.cons_append, place, ih, place, List.cons_append, List.length_cons]
      congr 3
      omega

theorem placeUp_append (y : Int) (texts texts' : List RowText) :
    placeUp y (texts ++ texts') = placeUp y texts ++ placeUp (y - texts.length) texts' := by
  induction texts generalizing y with
  | nil => simp [placeUp]
  | cons text texts ih =>
      rw [List.cons_append, placeUp, ih, placeUp, List.cons_append, List.length_cons]
      congr 3
      omega

/-- Rows drawn upwards are the rows drawn downwards, in the other order. -/
theorem placeUp_eq (y : Int) (texts : List RowText) :
    placeUp y texts = (place (y + 1 - texts.length) texts.reverse).reverse := by
  induction texts generalizing y with
  | nil => rfl
  | cons text texts ih =>
      have hlast : y + 1 - ((texts.length + 1 : Nat) : Int) + (texts.reverse.length : Int) = y := by
        rw [List.length_reverse]
        omega
      have hfirst : y - 1 + 1 - (texts.length : Int) = y + 1 - ((texts.length + 1 : Nat) : Int) := by
        omega
      rw [placeUp, ih, List.reverse_cons, place_append, List.reverse_append, List.length_cons, hlast,
        hfirst]
      rfl

/-! ## The loops -/

/-- The side that is on the left or on the right. -/
def side (left : Bool) : Side :=
  match p.layout, left with
  | .leftOurs, true => .ours
  | .leftOurs, false => .theirs
  | .rightOurs, true => .theirs
  | .rightOurs, false => .ours

/-- The name of the ref above the lines of a side is that of the side. -/
theorem refName_eq (left : Bool) :
    p.refName left = if p.side left = .ours then p.refNameOurs else p.refNameTheirs := by
  unfold refName side
  cases p.layout with
  | leftOurs => cases left <;> rfl
  | rightOurs => cases left <;> rfl

theorem hunkLinesGet_eq (hunk : Hunk) (left : Bool) :
    p.hunkLinesGet hunk left = hunk.lines (p.side left) := by
  unfold hunkLinesGet side Hunk.lines
  cases hunk.type with
  | normal => rfl
  | conflict =>
      cases p.layout with
      | leftOurs => cases left <;> rfl
      | rightOurs => cases left <;> rfl

/-- The rows of lines. -/
def texts (main : Bool) (lines : List Bytes) : List RowText := lines.map (.line main)

@[simp] theorem texts_nil (main : Bool) : texts main [] = [] := rfl

@[simp] theorem texts_cons (main : Bool) (line : Bytes) (lines : List Bytes) :
    texts main (line :: lines) = .line main line :: texts main lines := rfl

@[simp] theorem length_texts (main : Bool) (lines : List Bytes) :
    (texts main lines).length = lines.length := List.length_map _

theorem drop_texts (main : Bool) (lines : List Bytes) (n : Nat) :
    (texts main lines).drop n = texts main (lines.drop n) := List.map_drop.symm

theorem lineRows_eq (main : Bool) (bottom : Int) (lines : List Bytes) (y : Int) :
    lineRows main bottom lines y =
      (place y ((texts main lines).take (bottom - y).toNat),
        y + (min (bottom - y).toNat lines.length : Nat)) := by
  induction lines generalizing y with
  | nil => simp [lineRows, place]
  | cons line lines ih =>
      unfold lineRows
      split
      · next hlt =>
          obtain ⟨n, hn⟩ : ∃ n, (bottom - y).toNat = n + 1 := ⟨(bottom - y).toNat - 1, by omega⟩
          have hrest : (bottom - (y + 1)).toNat = n := by omega
          dsimp only
          rw [ih, hn, hrest, texts_cons, List.take_succ_cons, place, List.length_cons]
          refine Prod.ext rfl ?_
          dsimp only
          omega
      · next hge =>
          have hzero : (bottom - y).toNat = 0 := by omega
          rw [hzero]
          simp [place]

theorem lineRowsUp_eq (top : Int) (lines : List Bytes) (y : Int) :
    lineRowsUp top lines y =
      (placeUp y ((texts false lines).take (y + 1 - top).toNat),
        y - (min (y + 1 - top).toNat lines.length : Nat)) := by
  induction lines generalizing y with
  | nil => simp [lineRowsUp, placeUp]
  | cons line lines ih =>
      unfold lineRowsUp
      split
      · next hle =>
          obtain ⟨n, hn⟩ : ∃ n, (y + 1 - top).toNat = n + 1 := ⟨(y + 1 - top).toNat - 1, by omega⟩
          have hrest : (y - 1 + 1 - top).toNat = n := by omega
          dsimp only
          rw [ih, hn, hrest, texts_cons, List.take_succ_cons, placeUp, List.length_cons]
          refine Prod.ext rfl ?_
          dsimp only
          omega
      · next hgt =>
          have hzero : (y + 1 - top).toNat = 0 := by omega
          rw [hzero]
          simp [placeUp]

/-- The lines of a side in some hunks. -/
def sideLines (left : Bool) (hunks : List Hunk) : List Bytes :=
  hunks.flatMap fun hunk => hunk.lines (p.side left)

theorem sideLines_cons (left : Bool) (hunk : Hunk) (hunks : List Hunk) :
    p.sideLines left (hunk :: hunks) = hunk.lines (p.side left) ++ p.sideLines left hunks :=
  List.flatMap_cons

theorem take_texts_append (main : Bool) (lines lines' : List Bytes) (n : Nat) :
    (texts main (lines ++ lines')).take n =
      (texts main lines).take n ++ (texts main lines').take (n - min n lines.length) := by
  have hrest : n - lines.length = n - min n lines.length := by omega
  rw [texts, List.map_append, List.take_append, ← texts, ← texts, length_texts, hrest]

/-- Beneath the main section the loops draw the lines of the hunks as far as there is room. -/
theorem rowsDown_eq (left : Bool) (bottom : Int) (hunks : List Hunk) (y : Int) :
    p.rowsDown left bottom false hunks y =
      place y ((texts false (p.sideLines left hunks)).take (bottom - y).toNat) := by
  induction hunks generalizing y with
  | nil => simp [rowsDown, sideLines, place]
  | cons hunk hunks ih =>
      unfold rowsDown
      split
      · have hcond : (!false || !(p.hunkLinesGet hunk left).isEmpty) = true := rfl
        dsimp only
        rw [if_pos hcond, lineRows_eq, hunkLinesGet_eq]
        dsimp only
        rw [ih, sideLines_cons, take_texts_append, place_append, List.length_take, length_texts]
        congr 3
        omega
      · next hge =>
          have hzero : (bottom - y).toNat = 0 := by omega
          rw [hzero]
          simp [place]

/-- Above the main section the loops draw the lines of the hunks, the last one first. -/
theorem rowsUp_eq (left : Bool) (top : Int) (hunks : List Hunk) (y : Int) :
    p.rowsUp left top hunks y = placeUp y ((texts false
      (hunks.flatMap fun hunk => (hunk.lines (p.side left)).reverse)).take (y + 1 - top).toNat) := by
  induction hunks generalizing y with
  | nil => simp [rowsUp, placeUp]
  | cons hunk hunks ih =>
      unfold rowsUp
      split
      · dsimp only
        rw [lineRowsUp_eq, hunkLinesGet_eq]
        dsimp only
        rw [ih, List.flatMap_cons, take_texts_append, placeUp_append, List.length_take,
          length_texts]
        congr 3
        omega
      · next hgt =>
          have hzero : (y + 1 - top).toNat = 0 := by omega
          rw [hzero]
          simp [placeUp]

theorem countLines_eq (h : Int) (lines : List Bytes) {count : Int} (hcount : count ≤ max 0 h) :
    countLines h lines count = min (count + lines.length) (max count h) := by
  induction lines generalizing count with
  | nil =>
      unfold countLines
      simp only [List.length_nil]
      omega
  | cons line lines ih =>
      unfold countLines
      split
      · rw [ih (by omega), List.length_cons]
        omega
      · rw [List.length_cons]
        omega

theorem countHunks_eq (h : Int) (left : Bool) (hunks : List Hunk) {count : Int}
    (hcount : count ≤ max 0 h) :
    p.countHunks h left hunks count =
      min (count + (p.sideLines left hunks).length) (max count h) := by
  induction hunks generalizing count with
  | nil =>
      simp only [countHunks, sideLines, List.flatMap_nil, List.length_nil]
      omega
  | cons hunk hunks ih =>
      unfold countHunks
      rw [sideLines_cons, List.length_append]
      split
      · rw [countLines_eq h _ hcount, ih (by omega), hunkLinesGet_eq]
        omega
      · omega

/-! ## The window of a side -/

/-- The lines of a side above the hunk. -/
def above (left : Bool) : List Bytes := p.sideLines left (p.fileConflict.hunks.take p.hunkIdx)

/-- The lines of a side beneath the hunk. -/
def below (left : Bool) : List Bytes :=
  p.sideLines left (p.fileConflict.hunks.drop (p.hunkIdx + 1))

/-- The rows of the hunk itself: its lines, or the one that says that it has none. -/
def mainTexts (left : Bool) : List RowText :=
  if (p.mainConflictLines left).isEmpty then [.placeholder p.noFile]
  else texts true (p.mainConflictLines left)

/-- The rows of the whole side. -/
def sideTexts (left : Bool) : List RowText :=
  texts false (p.above left) ++ (p.mainTexts left ++ texts false (p.below left))

/-- The number of lines above the hunk that are shown: half of the room that the hunk leaves,
unless one of the sides has fewer. -/
def shownAbove (bounds : Size) (left : Bool) : Nat :=
  min (min (p.above true).length (p.above false).length)
    ((contentHeight bounds - (p.mainConflictLines left).length) / 2).toNat

theorem length_sideLines_reverse (left : Bool) (hunks : List Hunk) :
    (p.sideLines left hunks.reverse).length = (p.sideLines left hunks).length := by
  unfold sideLines
  rw [List.flatMap_reverse, List.length_reverse, List.length_flatMap, List.length_flatMap]
  simp

theorem maxLinesAboveConflict_eq (h : Int) (left : Bool) :
    p.maxLinesAboveConflict h left = min ((p.above left).length : Int) (max 0 h) := by
  unfold maxLinesAboveConflict above
  rw [countHunks_eq p h left _ (by omega), length_sideLines_reverse]
  omega

/-- Neither the height of the panel nor a negative room plays a part. -/
theorem mainConflictStartY_eq (bounds : Size) (left : Bool) :
    p.mainConflictStartY bounds left =
      (contentRect bounds left).t + (p.shownAbove bounds left : Int) := by
  have hsize : (contentRect bounds left).size.y = contentHeight bounds := by
    cases left <;> rfl
  have hheight : contentHeight bounds = bounds.y - 11 := by
    simp only [contentHeight, inset, contentInsetTop, contentInsetBottom]
    omega
  unfold mainConflictStartY shownAbove
  dsimp only
  rw [maxLinesAboveConflict_eq, maxLinesAboveConflict_eq, hsize]
  rcases Int.le_total 0 (contentHeight bounds - (p.mainConflictLines left).length) with hroom | hroom
  · rw [Int.tdiv_eq_ediv_of_nonneg hroom]
    omega
  · have hneg : (contentHeight bounds - (p.mainConflictLines left).length).tdiv 2 ≤ 0 := by
      rw [← Int.neg_neg (_ - _), Int.neg_tdiv, Int.tdiv_eq_ediv_of_nonneg (by omega)]
      omega
    omega

theorem shownAbove_le (bounds : Size) (left : Bool) :
    p.shownAbove bounds left ≤ (p.above left).length := by
  unfold shownAbove
  cases left <;> omega

/-- The lines above the hunk take at most half of the height. -/
theorem shownAbove_fits (bounds : Size) (left : Bool) :
    p.shownAbove bounds left ≤ ((contentHeight bounds - (p.mainConflictLines left).length) / 2).toNat :=
  Nat.min_le_right _ _

/-- The rows from the hunk down. -/
theorem rowsDown_main {hunk : Hunk} (hhunk : p.fileConflict.hunks[p.hunkIdx]? = some hunk)
    (left : Bool) (bottom y : Int) :
    p.rowsDown left bottom true (p.fileConflict.hunks.drop p.hunkIdx) y =
      place y ((p.mainTexts left ++ texts false (p.below left)).take (bottom - y).toNat) := by
  obtain ⟨hlt, heq⟩ := List.getElem?_eq_some_iff.mp hhunk
  have hdrop : p.fileConflict.hunks.drop p.hunkIdx =
      hunk :: p.fileConflict.hunks.drop (p.hunkIdx + 1) := by
    rw [List.drop_eq_getElem_cons hlt, heq]
  have hmain : p.mainConflictLines left = p.hunkLinesGet hunk left := by
    simp [mainConflictLines, hhunk]
  rw [hdrop]
  unfold rowsDown mainTexts
  rw [hmain]
  split
  · next hroom =>
      dsimp only
      cases hlines : p.hunkLinesGet hunk left with
      | nil =>
          -- the row of an empty hunk
          obtain ⟨n, hn⟩ : ∃ n, (bottom - y).toNat = n + 1 := ⟨(bottom - y).toNat - 1, by omega⟩
          have hrest : (bottom - (y + 1)).toNat = n := by omega
          rw [hn]
          simp only [List.isEmpty_nil, Bool.not_true, Bool.or_self, Bool.false_eq_true, if_false,
            if_true, List.singleton_append, List.take_succ_cons]
          rw [rowsDown_eq, place, hrest, below]
      | cons line lines =>
          have hcond : (!true || !(line :: lines).isEmpty) = true := rfl
          have hrest : (bottom - (y + (min (bottom - y).toNat (line :: lines).length : Nat))).toNat =
              (bottom - y).toNat - (texts true (line :: lines)).length := by
            rw [length_texts]
            omega
          have hshown : ((texts true (line :: lines)).take (bottom - y).toNat).length =
              min (bottom - y).toNat (line :: lines).length := by
            rw [List.length_take, length_texts]
          rw [if_pos hcond, lineRows_eq]
          dsimp only
          rw [rowsDown_eq, hrest, List.isEmpty_cons, if_neg Bool.false_ne_true, List.take_append,
            place_append, hshown, below]
  · next hroom =>
      have hzero : (bottom - y).toNat = 0 := by omega
      rw [hzero]
      simp [place]

/-- The rows from the hunk up are the last lines above it. -/
theorem rowsUp_above (left : Bool) (top : Int) {k : Nat} (hk : k ≤ (p.above left).length) :
    p.rowsUp left top (p.fileConflict.hunks.take p.hunkIdx).reverse (top + k - 1) =
      (place top (texts false ((p.above left).drop ((p.above left).length - k)))).reverse := by
  have hrev : ((p.fileConflict.hunks.take p.hunkIdx).reverse.flatMap
      fun hunk => (hunk.lines (p.side left)).reverse) = (p.above left).reverse := by
    rw [above, sideLines, List.reverse_flatMap]
    rfl
  have hcount : (top + k - 1 + 1 - top).toNat = k := by omega
  have hlast : (texts false (p.above left).reverse).take k =
      (texts false ((p.above left).drop ((p.above left).length - k))).reverse := by
    rw [texts, texts, ← List.map_take, ← List.map_reverse, List.take_reverse]
  have hlen : (texts false ((p.above left).drop ((p.above left).length - k))).length = k := by
    rw [length_texts, List.length_drop]
    omega
  have hfirst : top + k - 1 + 1 - (k : Int) = top := by omega
  rw [rowsUp_eq, hrev, hcount, hlast, placeUp_eq, List.length_reverse, hlen, hfirst,
    List.reverse_reverse]

/-- Above the hunk and beneath it, the two loops draw one window. -/
theorem contentRows_rows {hunk : Hunk} (hhunk : p.fileConflict.hunks[p.hunkIdx]? = some hunk)
    (bounds : Size) (left : Bool) :
    (p.contentRows bounds left).Perm (place (contentRect bounds left).t
      (((p.sideTexts left).drop ((p.above left).length - p.shownAbove bounds left)).take
        (contentHeight bounds).toNat)) := by
  have hle := p.shownAbove_le bounds left
  have hfits := p.shownAbove_fits bounds left
  have hbottom : (contentRect bounds left).b =
      (contentRect bounds left).t + contentHeight bounds := by
    cases left <;> rfl
  have hroom : ((contentRect bounds left).b -
      ((contentRect bounds left).t + (p.shownAbove bounds left : Int))).toNat =
      (contentHeight bounds).toNat - p.shownAbove bounds left := by
    rw [hbottom]
    omega
  have hrows := rowsUp_above p left (contentRect bounds left).t hle
  obtain ⟨shown, hshown⟩ :
      ∃ shown, shown = (p.above left).drop ((p.above left).length - p.shownAbove bounds left) :=
    ⟨_, rfl⟩
  have hlen : (texts false shown).length = p.shownAbove bounds left := by
    rw [length_texts, hshown, List.length_drop]
    omega
  have hdrop : (p.sideTexts left).drop ((p.above left).length - p.shownAbove bounds left) =
      texts false shown ++ (p.mainTexts left ++ texts false (p.below left)) := by
    rw [sideTexts, List.drop_append_of_le_length (by rw [length_texts]; omega), drop_texts,
      hshown]
  have htake : (texts false shown ++ (p.mainTexts left ++ texts false (p.below left))).take
        (contentHeight bounds).toNat =
      texts false shown ++ (p.mainTexts left ++ texts false (p.below left)).take
        ((contentHeight bounds).toNat - p.shownAbove bounds left) := by
    rw [List.take_append, hlen, List.take_of_length_le (by omega)]
  rw [← hshown] at hrows
  unfold contentRows
  dsimp only
  rw [mainConflictStartY_eq, rowsDown_main p hhunk, hrows, hroom, hdrop, htake, place_append,
    hlen]
  exact (List.Perm.append_left _ (List.reverse_perm _)).trans List.perm_append_comm

/-- A side shows consecutive lines of the file from its first row on, as many as there is room
for; the hunk is among them, as a whole where it fits. -/
theorem contentRows_window {hunk : Hunk} (hhunk : p.fileConflict.hunks[p.hunkIdx]? = some hunk)
    (bounds : Size) (left : Bool) :
    (p.contentRows bounds left).Perm (place (contentRect bounds left).t
        (((p.sideTexts left).drop ((p.above left).length - p.shownAbove bounds left)).take
          (contentHeight bounds).toNat)) ∧
      p.shownAbove bounds left ≤ (p.above left).length ∧
      (0 < contentHeight bounds → (p.mainConflictLines left).length ≤ contentHeight bounds →
        ((p.shownAbove bounds left + (p.mainTexts left).length : Nat) : Int) ≤
          contentHeight bounds) := by
  have hfits := p.shownAbove_fits bounds left
  refine ⟨p.contentRows_rows hhunk bounds left, p.shownAbove_le bounds left, ?_⟩
  intro hpos hmain
  unfold mainTexts
  split
  · simp only [List.length_singleton]
    omega
  · rw [length_texts]
    omega

/-- A conflict between two lines of a file, with ours on the left. -/
def greeting : ConflictPanel where
  layout := .leftOurs
  title := ascii "Conflict [1/1]"
  refNameOurs := ascii "main"
  refNameTheirs := ascii "topic"
  fileConflict := ⟨.file, [ascii "a.txt"],
    [.ofNormal [ascii "one", ascii "two"], .ofConflict [ascii "hello"] [ascii "bye", ascii "now"],
      .ofNormal [ascii "end"]]⟩
  hunkIdx := 1

theorem contentRows_greeting :
    (greeting.contentRows ⟨40, 15⟩ true).Perm (place 2
      [.line false (ascii "two"), .line true (ascii "hello"), .line false (ascii "end")]) :=
  (greeting.contentRows_window rfl ⟨40, 15⟩ true).1

/-! ## Drawing -/

theorem rowText_isSome {width : Int} (hwidth : 0 ≤ width) (text : RowText) :
    (rowText width text).isSome := by
  cases text with
  | placeholder noFile => rfl
  | line main str =>
      obtain ⟨r, hr, -⟩ := contentTextLoop_bounds width.toNat (cStr str).length (cStr str) 0
        (Nat.le_refl _)
      have hnonneg : ¬width < 0 := by omega
      rw [rowText, if_neg hnonneg, contentText, hr]
      rfl

/-- A row shows what `_ContentTextFilter` makes of its line, where a string may have as many bytes as
an `int` says but not 2^64 - 2^31. -/
theorem rowText_line {maxSize : Nat} (hints : 2 ^ 31 ≤ maxSize) (hlimit : maxSize < 2 ^ 64 - 2 ^ 31)
    {width : Int} (hlow : -2 ^ 31 ≤ width) (hhigh : width < 2 ^ 31) (main : Bool) (str : Bytes) :
    rowText width (.line main str) = contentTextFilter maxSize (sizeT width) (cStr str) := by
  unfold contentTextFilter sizeT
  show (if width < 0 then none else _) = _
  by_cases hwidth : width < 0
  · rw [if_pos hwidth, if_pos (by omega)]
  · have hmod : width % 2 ^ 64 = width := Int.emod_eq_of_lt (by omega) (by omega)
    rw [if_neg hwidth, hmod, if_neg (by omega)]

/-- The texts of a side are those of its rows. -/
def sideDraw (bounds : Size) (left : Bool) : Option (List (Int × Bytes)) :=
  (p.contentRows bounds left).mapM fun row =>
    (rowText (contentRect bounds left).size.x row.text).map fun text => (row.y, text)

theorem draw_isSome (bounds : Size) :
    (p.draw bounds).isSome ↔ (p.sideDraw bounds true).isSome ∧ (p.sideDraw bounds false).isSome := by
  show ((p.sideDraw bounds true).bind fun left =>
    (p.sideDraw bounds false).bind fun right => some (left, right)).isSome ↔ _
  cases p.sideDraw bounds true with
  | none => simp
  | some left => cases p.sideDraw bounds false <;> simp

/-- A side can be drawn if and only if the text of each of its rows can. -/
theorem sideDraw_isSome (bounds : Size) (left : Bool) :
    (p.sideDraw bounds left).isSome ↔
      ∀ row ∈ p.contentRows bounds left, (rowText (contentRect bounds left).size.x row.text).isSome := by
  unfold sideDraw
  induction p.contentRows bounds left with
  | nil => simp
  | cons row rows ih =>
      rw [List.mapM_cons, List.forall_mem_cons, ← ih]
      cases rowText (contentRect bounds left).size.x row.text with
      | none => simp
      | some text =>
          cases rows.mapM fun row =>
              (rowText (contentRect bounds left).size.x row.text).map fun text => (row.y, text) with
          | none => simp
          | some texts => simp

/-- The right side is the narrower one. -/
theorem contentRect_width {screen : Size} (hx : 0 ≤ screen.x) :
    (contentRect (sizeIntrinsic screen) false).size.x < 0 ↔ screen.x < 13 := by
  have hpadding : screen.x.tdiv 5 = screen.x / 5 := Int.tdiv_eq_ediv_of_nonneg hx
  have hmiddle : (screen.x - min 10 (screen.x / 5)).tdiv 2 =
      (screen.x - min 10 (screen.x / 5)) / 2 := Int.tdiv_eq_ediv_of_nonneg (by omega)
  simp only [contentRect, contentRectRight, sizeIntrinsic, separatorX, inset, hpadding, hmiddle,
    Bool.false_eq_true, if_false]
  omega

theorem contentRect_width_nonneg {screen : Size} (hx : 13 ≤ screen.x) (left : Bool) :
    0 ≤ (contentRect (sizeIntrinsic screen) left).size.x := by
  have hpadding : screen.x.tdiv 5 = screen.x / 5 := Int.tdiv_eq_ediv_of_nonneg (by omega)
  have hmiddle : (screen.x - min 10 (screen.x / 5)).tdiv 2 =
      (screen.x - min 10 (screen.x / 5)) / 2 := Int.tdiv_eq_ediv_of_nonneg (by omega)
  cases left <;>
    simp only [contentRect, contentRectLeft, contentRectRight, sizeIntrinsic, separatorX, inset,
      hpadding, hmiddle, Bool.false_eq_true, if_true, if_false] <;> omega

theorem contentHeight_pos {screen : Size} (hy : 0 ≤ screen.y) :
    0 < contentHeight (sizeIntrinsic screen) ↔ 14 ≤ screen.y := by
  have hpadding : screen.y.tdiv 5 = screen.y / 5 := Int.tdiv_eq_ediv_of_nonneg hy
  simp only [contentHeight, sizeIntrinsic, inset, contentInsetTop, contentInsetBottom, hpadding]
  omega

/-- Where there is room for a row, the first line of the hunk is shown. -/
theorem exists_main_row {hunk : Hunk} (hhunk : p.fileConflict.hunks[p.hunkIdx]? = some hunk)
    {left : Bool} (hlines : hunk.lines (p.side left) ≠ []) {bounds : Size}
    (hroom : 0 < contentHeight bounds) :
    ∃ row ∈ p.contentRows bounds left, ∃ line, row.text = .line true line := by
  obtain ⟨line, lines, heq⟩ := List.exists_cons_of_ne_nil hlines
  have hmain : p.mainTexts left = .line true line :: texts true lines := by
    simp [mainTexts, mainConflictLines, hhunk, hunkLinesGet_eq, heq]
  have hfits := p.shownAbove_fits bounds left
  have hbottom : (contentRect bounds left).b =
      (contentRect bounds left).t + contentHeight bounds := by
    cases left <;> rfl
  obtain ⟨n, hn⟩ : ∃ n, ((contentRect bounds left).b - ((contentRect bounds left).t +
      (p.shownAbove bounds left : Int))).toNat = n + 1 :=
    ⟨((contentRect bounds left).b - ((contentRect bounds left).t +
      (p.shownAbove bounds left : Int))).toNat - 1, by omega⟩
  refine ⟨⟨p.mainConflictStartY bounds left, .line true line⟩, ?_, line, rfl⟩
  unfold contentRows
  dsimp only
  rw [mainConflictStartY_eq, rowsDown_main p hhunk, hn, hmain, List.cons_append,
    List.take_succ_cons, place]
  exact List.mem_append_left _ List.mem_cons_self

/-- A panel of the size that it has for a screen can be drawn on 13 columns or more, and on fewer
than 14 rows, where it shows no line; otherwise drawing it throws. -/
theorem draw_isSome_iff {hunk : Hunk} (hhunk : p.fileConflict.hunks[p.hunkIdx]? = some hunk)
    (hlines : ∀ side, hunk.lines side ≠ []) {screen : Size} (hx : 0 ≤ screen.x)
    (hy : 0 ≤ screen.y) :
    (p.draw (sizeIntrinsic screen)).isSome ↔ 13 ≤ screen.x ∨ screen.y < 14 := by
  have hheight := contentHeight_pos hy
  rw [draw_isSome, sideDraw_isSome, sideDraw_isSome]
  constructor
  · rintro ⟨-, hright⟩
    by_contra hnarrow
    obtain ⟨row, hrow, line, htext⟩ :=
      p.exists_main_row hhunk (hlines (p.side false)) (hheight.mpr (by omega))
    have hsome := hright row hrow
    have hwidth := (contentRect_width hx).mpr (by omega)
    rw [htext, rowText, if_pos hwidth] at hsome
    cases hsome
  · intro hscreen
    suffices hside : ∀ left, ∀ row ∈ p.contentRows (sizeIntrinsic screen) left,
        (rowText (contentRect (sizeIntrinsic screen) left).size.x row.text).isSome from
      ⟨hside true, hside false⟩
    intro left row hrow
    rcases Int.lt_or_le screen.x 13 with hnarrow | hwide
    · have hzero : (contentHeight (sizeIntrinsic screen)).toNat = 0 := by omega
      have hmem := (p.contentRows_rows hhunk (sizeIntrinsic screen) left).mem_iff.mp hrow
      rw [hzero, List.take_zero] at hmem
      cases hmem
    · exact rowText_isSome (contentRect_width_nonneg hwide left) row.text

theorem draw_greeting :
    (greeting.draw (sizeIntrinsic ⟨80, 24⟩)).isSome ∧
      ¬(greeting.draw (sizeIntrinsic ⟨12, 24⟩)).isSome := by
  have hlines : ∀ side, (Hunk.ofConflict [ascii "hello"] [ascii "bye", ascii "now"]).lines side ≠
      [] := by
    intro side
    cases side <;> decide
  constructor
  · exact (greeting.draw_isSome_iff rfl hlines (by decide) (by decide)).mpr (by decide)
  · rw [greeting.draw_isSome_iff rfl hlines (by decide) (by decide)]
    decide

end ConflictPanel

end Ui
end Debase
