import Debase.Ui.LineWrapHeight
import Debase.Ui.TextField

/-!
# Labels

`ui/Label.h`: a label shows a text on one line, or wrapped.  It is measured by `sizeIntrinsic` and
drawn into the size that it is given then.
-/

namespace Debase
namespace Ui

open Library Library.Utf8 UTF8

/-- `ConstraintNone`. -/
def constraintNone : Int := 2 ^ 31 - 1

/-- `Truncate`. -/
inductive Truncate where
  | tail
  | head
deriving DecidableEq

/-- `Label`, without its colour. -/
structure Label where
  text : Bytes := []
  prefixText : Bytes := []
  suffixText : Bytes := []
  align : Align := .left
  truncate : Truncate := .tail
  centerSingleLine : Bool := false
  wrap : Bool := false
  allowEmptyLines : Bool := false

/-- A text that is drawn, with the point that it begins at. -/
structure Drawn where
  origin : Point
  text : Bytes
deriving DecidableEq

/-- The columns that a text takes are in the rectangle, and so is its row. -/
structure Drawn.Within (d : Drawn) (r : Rect) : Prop where
  left : r.l ≤ d.origin.x
  right : d.origin.x + len d.text ≤ r.r
  top : r.t ≤ d.origin.y
  bottom : d.origin.y < r.b

namespace Label

/-- What stops the program. -/
inductive Fault where
  /-- `assert(constraint.x >= 0)` and `assert(constraint.y >= 0)`. -/
  | constraint
  | wrap (e : LineWrap.Fault)
  /-- A walk over code points leaves its text. -/
  | walk
deriving DecidableEq

/-- `sizeIntrinsic`. -/
def sizeIntrinsic (fuel : Nat) (label : Label) (constraint : Size) : Option (Except Fault Size) :=
  if constraint.x < 0 ∨ constraint.y < 0 then some (.error .constraint)
  else if label.wrap then
    let width : Int := if constraint.x ≠ constraintNone then constraint.x else len label.text
    let opts : LineWrap.Options :=
      { width := some width.toNat, allowEmptyLines := label.allowEmptyLines }
    match LineWrap.wrap fuel opts label.text with
    | none => none
    | some (.error e) => some (.error (.wrap e))
    | some (.ok lines) => some (.ok ⟨width, lines.length⟩)
  else
    let fullWidth : Int := len label.prefixText + len label.text + len label.suffixText
    some (.ok ⟨if constraint.x ≠ constraintNone then min constraint.x fullWidth else fullWidth, 1⟩)

/-- `_lines`, as `draw` creates them after a layout. -/
def lines (fuel : Nat) (label : Label) (s : Size) : Option (Except LineWrap.Fault (List Bytes)) :=
  if label.text.isEmpty then some (.ok [])
  else if label.wrap then
    let opts : LineWrap.Options :=
      { width := some s.x.toNat, height := some s.y.toNat
        allowEmptyLines := label.allowEmptyLines }
    LineWrap.wrap fuel opts label.text
  else some (.ok [label.text])

/-- `prefix` in `draw`. -/
def drawPrefix (label : Label) : Bytes := if label.wrap then [] else label.prefixText

/-- `suffix` in `draw`. -/
def drawSuffix (label : Label) : Bytes := if label.wrap then [] else label.suffixText

/-- `availBaseWidth` in `draw`. -/
def availBaseWidth (label : Label) (s : Size) : Int :=
  max 0 (s.x - len label.drawPrefix - len label.drawSuffix)

/-- `base` in `draw`: what is kept of the line `l`. -/
def base (label : Label) (s : Size) (l : Bytes) : Option Bytes :=
  match label.truncate with
  | .tail => truncateTail l (label.availBaseWidth s).toNat
  | .head => truncateHead l (label.availBaseWidth s).toNat

/-- `line` in `draw`: what is drawn of the line `l`. -/
def line (label : Label) (s : Size) (l : Bytes) : Option Bytes :=
  (label.base s l).bind fun base =>
    truncateTail (label.drawPrefix ++ base ++ label.drawSuffix) s.x.toNat

/-- `align` in `draw`. -/
def lineAlign (label : Label) (lineCount : Nat) : Align :=
  if label.centerSingleLine && lineCount = 1 then .center else label.align

/-- `p.x` in `draw`. -/
def offX (label : Label) (s : Size) (lineCount lineWidth : Nat) : Int :=
  match label.lineAlign lineCount with
  | .left => 0
  | .center => max 0 ((s.x - lineWidth).tdiv 2)
  | .right => max 0 (s.x - lineWidth)

/-- The loop of `draw`; `lineCount` is the number of all lines. -/
def drawLines (label : Label) (s : Size) (lineCount : Nat) : Int → List Bytes → Option (List Drawn)
  | _, [] => some []
  | offY, l :: ls =>
      if s.y ≤ offY then some []
      else
        (label.line s l).bind fun line =>
          (drawLines label s lineCount (offY + 1) ls).map fun rest =>
            ⟨⟨label.offX s lineCount (len line), offY⟩, line⟩ :: rest

/-- `draw` in a frame of size `s`. -/
def draw (fuel : Nat) (label : Label) (s : Size) : Option (Except Fault (List Drawn)) :=
  match label.lines fuel s with
  | none => none
  | some (.error e) => some (.error (.wrap e))
  | some (.ok lines) =>
      match label.drawLines s lines.length 0 lines with
      | none => some (.error .walk)
      | some drawn => some (.ok drawn)

/-! ## One line -/

theorem truncateTail_eq_self {str : Bytes} {n : Nat} (hstart : AtStart str) (hfits : len str ≤ n) :
    truncateTail str n = some str := by
  obtain ⟨r, q, htail, hsplit, -, hcut⟩ := truncateTail_spec str n
  obtain ⟨hq, hlen⟩ := hcut hstart
  have hnone : q = [] := by
    rcases q with _ | ⟨b, q⟩
    · rfl
    · rw [hsplit, len_append, len_cons_start (hq b rfl)] at hlen hfits
      omega
  rw [htail, hsplit, hnone, List.append_nil]

theorem truncateHead_eq_self {str : Bytes} {n : Nat} (hstart : AtStart str) (hfits : len str ≤ n) :
    truncateHead str n = some str := by
  unfold truncateHead
  by_cases hn : n = 0
  · -- a text that begins with a code point has no columns only if it is empty
    rcases str with _ | ⟨b, str⟩
    · rw [if_pos hn]
    · rw [len_cons_start (hstart b rfl)] at hfits
      omega
  · rw [if_neg hn, if_pos hfits, ite_self]

theorem atStart_of_ascii {bs : Bytes} (h : ∀ b ∈ bs, isAscii b = true) : AtStart bs :=
  fun b hb => codepointStart_of_isAscii (h b (List.mem_of_mem_head? hb))

variable {label : Label} {s : Size}

/-- A drawn line fits the width of the label, whatever its text is. -/
theorem line_fits (label : Label) (hs : 0 ≤ s.x) (l : Bytes) :
    ∃ line, label.line s l = some line ∧ (len line : Int) ≤ s.x := by
  have hbase : ∃ base, label.base s l = some base := by
    unfold base
    cases label.truncate with
    | tail =>
        obtain ⟨r, -, hr, -⟩ := truncateTail_spec l (label.availBaseWidth s).toNat
        exact ⟨r, hr⟩
    | head =>
        obtain ⟨-, r, hr, -⟩ := truncateHead_spec l (label.availBaseWidth s).toNat
        exact ⟨r, hr⟩
  obtain ⟨base, hbase⟩ := hbase
  obtain ⟨r, -, hr, -, hlen, -⟩ :=
    truncateTail_spec (label.drawPrefix ++ base ++ label.drawSuffix) s.x.toNat
  exact ⟨r, by rw [line, hbase, Option.bind_some, hr], by omega⟩

/-- A line that fits is drawn as it is. -/
theorem line_eq_self {l : Bytes} (hstart : AtStart (label.drawPrefix ++ l ++ label.drawSuffix))
    (hl : AtStart l) (hfits : (len (label.drawPrefix ++ l ++ label.drawSuffix) : Int) ≤ s.x) :
    label.line s l = some (label.drawPrefix ++ l ++ label.drawSuffix) := by
  have hlen : len (label.drawPrefix ++ l ++ label.drawSuffix) =
      len label.drawPrefix + len l + len label.drawSuffix := by
    rw [len_append, len_append]
  have havail : (len l : Int) ≤ label.availBaseWidth s := by
    unfold availBaseWidth
    omega
  have hbase : label.base s l = some l := by
    unfold base
    cases label.truncate with
    | tail => exact truncateTail_eq_self hl (by omega)
    | head => exact truncateHead_eq_self hl (by omega)
  rw [line, hbase, Option.bind_some, truncateTail_eq_self hstart (by omega)]

theorem offX_bounds (label : Label) (lineCount : Nat) {lineWidth : Nat}
    (hfits : (lineWidth : Int) ≤ s.x) :
    0 ≤ label.offX s lineCount lineWidth ∧ label.offX s lineCount lineWidth + lineWidth ≤ s.x := by
  have hhalf : (s.x - lineWidth).tdiv 2 = (s.x - lineWidth) / 2 :=
    Int.tdiv_eq_ediv_of_nonneg (by omega)
  unfold offX
  rw [hhalf]
  cases label.lineAlign lineCount with
  | left => dsimp only; omega
  | center => dsimp only; omega
  | right => dsimp only; omega

/-! ## All lines -/

/-- What is drawn of a line, and where. -/
structure Row (label : Label) (s : Size) (lineCount : Nat) (y : Int) (l : Bytes) (d : Drawn) :
    Prop where
  text : label.line s l = some d.text
  origin : d.origin = ⟨label.offX s lineCount (len d.text), y⟩

theorem Row.within {lineCount : Nat} {y : Int} {l : Bytes} {d : Drawn}
    (h : Row label s lineCount y l d) (hs : 0 ≤ s.x) (htop : 0 ≤ y) (hbottom : y < s.y) :
    d.Within ⟨⟨0, 0⟩, s⟩ := by
  obtain ⟨line, hline, hfits⟩ := line_fits label hs l
  obtain rfl : line = d.text := Option.some.inj (hline.symm.trans h.text)
  obtain ⟨hleft, hright⟩ := offX_bounds label lineCount hfits
  constructor
  · rwa [h.origin]
  · rw [h.origin]
    simpa [Rect.r] using hright
  · rwa [h.origin]
  · rw [h.origin]
    simpa [Rect.b] using hbottom

/-- The lines are drawn one below the other, as many as there are rows. -/
theorem drawLines_rows (label : Label) (hs : 0 ≤ s.x) (lineCount : Nat) (offY : Int)
    (lines : List Bytes) :
    ∃ drawn, label.drawLines s lineCount offY lines = some drawn ∧
      drawn.length = min lines.length (s.y - offY).toNat ∧
      ∀ (i : Nat) (d : Drawn), drawn[i]? = some d →
        ∃ l, lines[i]? = some l ∧ Row label s lineCount (offY + i) l d := by
  induction lines generalizing offY with
  | nil => exact ⟨[], rfl, (Nat.zero_min _).symm, fun i d hd => by cases hd⟩
  | cons l lines ih =>
      by_cases hend : s.y ≤ offY
      · exact ⟨[], if_pos hend, by simp; omega, fun i d hd => by cases hd⟩
      · obtain ⟨line, hline, -⟩ := line_fits label hs l
        obtain ⟨rest, hrest, hlength, hrows⟩ := ih (offY + 1)
        refine ⟨⟨⟨label.offX s lineCount (len line), offY⟩, line⟩ :: rest, ?_, ?_, fun i d hd => ?_⟩
        · rw [drawLines, if_neg hend, hline, Option.bind_some, hrest, Option.map_some]
        · rw [List.length_cons, List.length_cons, hlength]
          omega
        · rcases i with _ | i
          · cases hd
            exact ⟨l, rfl, hline, by simp⟩
          · obtain ⟨l', hl', hrow⟩ := hrows i d hd
            have hy : offY + (i + 1 : Nat) = offY + 1 + i := by omega
            exact ⟨l', hl', hy ▸ hrow⟩

/-- What a label draws, given its lines: one in each row from the first one on, as many as it has or
as there are rows, and each within the label. -/
theorem draw_rows {fuel : Nat} (label : Label) (hs : 0 ≤ s.x) {lines : List Bytes}
    (hlines : label.lines fuel s = some (.ok lines)) :
    ∃ drawn, label.draw fuel s = some (.ok drawn) ∧ drawn.length = min lines.length s.y.toNat ∧
      ∀ (i : Nat) (d : Drawn), drawn[i]? = some d →
        ∃ l, lines[i]? = some l ∧ Row label s lines.length i l d ∧ d.Within ⟨⟨0, 0⟩, s⟩ := by
  obtain ⟨drawn, hdrawn, hlength, hrows⟩ := drawLines_rows label hs lines.length 0 lines
  rw [Int.sub_zero] at hlength
  refine ⟨drawn, by simp only [draw, hlines, hdrawn], hlength, fun i d hd => ?_⟩
  obtain ⟨l, hl, hrow⟩ := hrows i d hd
  obtain ⟨hi, -⟩ := List.getElem?_eq_some_iff.mp hd
  rw [Int.zero_add] at hrow
  exact ⟨l, hl, hrow, hrow.within hs (by omega) (by omega)⟩

/-- A label of one line draws it in its first row. -/
theorem draw_single (fuel : Nat) (hwrap : label.wrap = false) (hs : 0 ≤ s.x) (hrow : 0 < s.y)
    (hne : label.text ≠ []) :
    ∃ d, label.draw fuel s = some (.ok [d]) ∧ Row label s 1 0 label.text d ∧
      d.Within ⟨⟨0, 0⟩, s⟩ := by
  have hlines : label.lines fuel s = some (.ok [label.text]) := by
    rw [lines, if_neg (by simpa using hne), if_neg (by simp [hwrap])]
  obtain ⟨drawn, hdrawn, hlength, hrows⟩ := draw_rows label hs hlines
  have hone : drawn.length = 1 := by
    rw [hlength, List.length_singleton]
    omega
  obtain ⟨d, rfl⟩ := List.length_eq_one_iff.mp hone
  obtain ⟨l, hl, hd, hwithin⟩ := hrows 0 d rfl
  cases hl
  exact ⟨d, hdrawn, hd, hwithin⟩

/-- A label of one line that has room for its text draws it as it is. -/
theorem draw_fits (fuel : Nat) (hwrap : label.wrap = false) (hrow : 0 < s.y) (hne : label.text ≠ [])
    {text : Bytes} (htext : label.prefixText ++ label.text ++ label.suffixText = text)
    (hascii : ∀ b ∈ text, isAscii b = true) (hfits : (text.length : Int) ≤ s.x) :
    label.draw fuel s = some (.ok [⟨⟨label.offX s 1 text.length, 0⟩, text⟩]) := by
  obtain ⟨d, hdraw, ⟨hline, horigin⟩, -⟩ := draw_single fuel hwrap (by omega) hrow hne
  have hlen := len_of_ascii hascii
  have hjoin : label.drawPrefix ++ label.text ++ label.drawSuffix = text := by
    rw [drawPrefix, drawSuffix, hwrap]
    exact htext
  have hl : AtStart label.text := by
    refine atStart_of_ascii fun b hb => hascii b ?_
    rw [← htext]
    exact List.mem_append_left _ (List.mem_append_right _ hb)
  have hself : label.line s label.text = some text := by
    rw [← hjoin] at hascii hlen
    rw [line_eq_self (atStart_of_ascii hascii) hl (by rw [hlen, hjoin]; exact hfits), hjoin]
  have htext' : d.text = text := Option.some.inj (hline.symm.trans hself)
  rw [htext', hlen] at horigin
  rw [hdraw, ← horigin, ← htext']

/-! ## A wrapped label that was measured -/

/-- A wrapped label is measured as as many rows as its text has lines of the width. -/
theorem sizeIntrinsic_wrap {width : Nat} (hwrap : label.wrap = true) (hwidth : 0 < width)
    (hlimit : (width : Int) < constraintNone) {fuel : Nat}
    (hfuel : LineWrap.enough { width := some width, allowEmptyLines := label.allowEmptyLines }
      label.text ≤ fuel) :
    ∃ full, LineWrap.wrap fuel { width := some width, allowEmptyLines := label.allowEmptyLines }
        label.text = some (.ok full) ∧
      (∀ l ∈ full, len l ≤ width) ∧
      label.sizeIntrinsic fuel ⟨width, constraintNone⟩ = some (.ok ⟨width, full.length⟩) := by
  obtain ⟨full, hfull, hfits⟩ := LineWrap.wrap_enough hwidth label.allowEmptyLines label.text
  have hmore := LineWrap.wrap_mono hfull hfuel
  refine ⟨full, hmore, hfits, ?_⟩
  have hsize : ¬((width : Int) < 0 ∨ constraintNone < 0) := by
    unfold constraintNone
    omega
  unfold sizeIntrinsic
  rw [if_neg hsize, if_pos hwrap]
  simp only [if_pos (Int.ne_of_lt hlimit), Int.toNat_natCast, hmore]

/-- A wrapped label in a part of the rows that it was measured as fills them, one line in each. -/
theorem draw_measured {width rows : Nat} (hwrap : label.wrap = true) (hwidth : 0 < width)
    {fuel : Nat} {blocks : List (List Bytes)}
    (hfull : LineWrap.wrap fuel { width := some width, allowEmptyLines := label.allowEmptyLines }
      label.text = some (.ok blocks.flatten))
    (hblocks : LineWrap.Gives width label.allowEmptyLines label.text blocks)
    (hrows : rows ≤ blocks.flatten.length) :
    ∃ shown drawn, LineWrap.Shown width rows blocks shown ∧
      label.draw fuel ⟨width, rows⟩ = some (.ok drawn) ∧ drawn.length = rows ∧
      ∀ (i : Nat) (d : Drawn), drawn[i]? = some d → ∃ l, shown[i]? = some l ∧
        Row label ⟨width, rows⟩ rows i l d ∧ d.Within ⟨⟨0, 0⟩, ⟨width, rows⟩⟩ := by
  obtain ⟨shown, hshown, hspec⟩ := LineWrap.wrap_shown hwidth hfull hblocks rows
  have hlength : shown.length = rows := by
    rw [hspec.length_eq]
    omega
  have hlines : label.lines fuel ⟨width, rows⟩ = some (.ok shown) := by
    unfold lines
    by_cases hempty : label.text = []
    · -- there is nothing to wrap
      rw [hempty] at hshown ⊢
      rcases fuel with _ | fuel
      · cases hshown
      · cases hshown
        rfl
    · rw [if_neg (by simpa using hempty), if_pos hwrap]
      exact hshown
  have hs : (0 : Int) ≤ (⟨width, rows⟩ : Size).x := Int.natCast_nonneg width
  obtain ⟨drawn, hdrawn, hcount, hall⟩ := draw_rows label hs hlines
  rw [hlength] at hcount hall
  exact ⟨shown, drawn, hspec, hdrawn, by rw [hcount]; simp, hall⟩

end Label
end Ui
end Debase
