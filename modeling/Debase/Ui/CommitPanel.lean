import Debase.Git.Display
import Debase.Ui.Label

/-!
# Commit panels

`ui/CommitPanel.h`: a panel shows a header, the id and the date of its commit, the author and the
message.  It is as high as these need, with the message on two rows at most, and it is drawn so that
no text covers another one.
-/

namespace Debase
namespace Ui

open Git Library Library.Utf8

/-- `View::frame(const Rect& x)`. -/
def setFrame (x : Rect) : Rect := ⟨Menu.setOrigin x.origin, Menu.setSize x.size⟩

/-- A text that a subview draws, in the coordinates of its superview. -/
def Drawn.place (origin : Point) (d : Drawn) : Drawn :=
  ⟨⟨d.origin.x + origin.x, d.origin.y + origin.y⟩, d.text⟩

/-- Subviews are drawn one after the other; each is a label with its frame. -/
def drawLabels (fuel : Nat) : List (Label × Rect) → Option (Except Label.Fault (List Drawn))
  | [] => some (.ok [])
  | (label, frame) :: labels =>
      match label.draw fuel frame.size with
      | none => none
      | some (.error e) => some (.error e)
      | some (.ok drawn) =>
          match drawLabels fuel labels with
          | none => none
          | some (.error e) => some (.error e)
          | some (.ok rest) => some (.ok (drawn.map (Drawn.place frame.origin) ++ rest))

/-- `CommitPanel`, without its colours.  `time` is the text of `_time`; no panel is made for a commit
whose date cannot be printed. -/
structure CommitPanel where
  commit : Commit
  time : Bytes
  header : Bytes
  dated : shortStringForTime commit.author.when = .ok time

namespace CommitPanel

/-- `_CommitIdWidth`. -/
def commitIdWidth : Nat := 7

/-- `_MessageLineCountMax`. -/
def messageLineCountMax : Int := 2

/-- `_TextInset`. -/
def textInset : Int := 2

section Draw

variable (id : Commit → Oid) (panel : CommitPanel) (fuel : Nat)

/-- `(header ? 1 : 0)`. -/
def offY : Int := if panel.header.isEmpty then 0 else 1

/-- What `layout` puts on both sides of the id and of the date. -/
def gap : Bytes := if panel.header.isEmpty then ascii " " else []

/-- `_header`. -/
def headerLabel : Label :=
  { text := panel.header, prefixText := ascii " ", suffixText := ascii " " }

/-- `_id`. -/
def idLabel : Label :=
  { text := displayStringForId (id panel.commit) commitIdWidth,
    prefixText := panel.gap, suffixText := panel.gap }

/-- `_time`. -/
def timeLabel : Label :=
  { text := panel.time, prefixText := panel.gap, suffixText := panel.gap, align := .right }

/-- `_author`. -/
def authorLabel : Label := { text := panel.commit.author.name }

/-- `_message`. -/
def messageLabel : Label := { text := panel.commit.message, wrap := true }

/-- `_mergeSymbol`. -/
def mergeSymbolLabel : Label := { text := encode ['𝝠'] }

/-- `messageSize`. -/
def messageSize (width : Int) : Option (Except Label.Fault Size) :=
  match panel.messageLabel.sizeIntrinsic fuel ⟨width - 2 * textInset, constraintNone⟩ with
  | none => none
  | some (.error e) => some (.error e)
  | some (.ok s) => some (.ok ⟨s.x, min messageLineCountMax s.y⟩)

/-- `sizeIntrinsic`. -/
def sizeIntrinsic (constraint : Size) : Option (Except Label.Fault Size) :=
  match panel.messageSize fuel constraint.x with
  | none => none
  | some (.error e) => some (.error e)
  | some (.ok msgSize) => some (.ok ⟨constraint.x, panel.offY + 3 + msgSize.y⟩)

/-- The visible labels with the frames that `layout` gives them in a panel of size `s`; `ms` is the
size of the message. -/
def labels (s ms : Size) : List (Label × Rect) :=
  [(panel.headerLabel, setFrame ⟨⟨textInset + 1, 0⟩, ⟨s.x - (textInset + 1), 1⟩⟩),
    (panel.idLabel id, setFrame ⟨⟨textInset, panel.offY⟩, ⟨s.x - 2 * textInset, 1⟩⟩),
    (panel.timeLabel, setFrame ⟨⟨0, panel.offY⟩, ⟨s.x - textInset, 1⟩⟩),
    (panel.authorLabel, setFrame ⟨⟨textInset, panel.offY + 1⟩, ⟨s.x - 2 * textInset, 1⟩⟩),
    (panel.messageLabel, setFrame ⟨⟨textInset, panel.offY + 2⟩,
      ⟨ms.x, min messageLineCountMax ms.y⟩⟩)] ++
  if panel.commit.isMerge then [(mergeSymbolLabel, setFrame ⟨⟨0, 1⟩, ⟨1, 1⟩⟩)] else []

/-- The texts that are drawn in a panel of size `s`. -/
def draw (s : Size) : Option (Except Label.Fault (List Drawn)) :=
  match panel.messageSize fuel s.x with
  | none => none
  | some (.error e) => some (.error e)
  | some (.ok ms) => drawLabels fuel (panel.labels id s ms)

end Draw

end CommitPanel

/-! ## Texts that do not meet -/

/-- No cell is taken by both texts. -/
def Drawn.Apart (d e : Drawn) : Prop :=
  d.origin.y = e.origin.y →
    d.origin.x + len d.text ≤ e.origin.x ∨ e.origin.x + len e.text ≤ d.origin.x

/-- One rectangle is beside the other one, or above or below it. -/
def Rect.Separate (r r' : Rect) : Prop := r.r ≤ r'.l ∨ r'.r ≤ r.l ∨ r.b ≤ r'.t ∨ r'.b ≤ r.t

theorem Drawn.Within.apart {d e : Drawn} {r r' : Rect} (hd : d.Within r) (he : e.Within r')
    (h : r.Separate r') : d.Apart e := by
  intro hrow
  obtain ⟨hdl, hdr, hdt, hdb⟩ := hd
  obtain ⟨hel, her, het, heb⟩ := he
  rcases h with h | h | h | h
  · exact Or.inl (by omega)
  · exact Or.inr (by omega)
  · omega
  · omega

theorem Drawn.Within.mono {d : Drawn} {x y w h x' y' w' h' : Int}
    (hd : d.Within ⟨⟨x, y⟩, ⟨w, h⟩⟩) (hl : x' ≤ x) (hr : x + w ≤ x' + w') (ht : y' ≤ y)
    (hb : y + h ≤ y' + h') : d.Within ⟨⟨x', y'⟩, ⟨w', h'⟩⟩ :=
  ⟨hl.trans hd.left, hd.right.trans hr, ht.trans hd.top, hd.bottom.trans_le hb⟩

/-- A text in a subview is within the frame of the subview. -/
theorem Drawn.Within.place {d : Drawn} {s : Size} (h : d.Within ⟨⟨0, 0⟩, s⟩) (origin : Point) :
    (d.place origin).Within ⟨origin, s⟩ := by
  obtain ⟨hl, hr, ht, hb⟩ := h
  simp only [Rect.l, Rect.r, Rect.t, Rect.b] at hl hr ht hb
  constructor
  · show origin.x ≤ d.origin.x + origin.x
    omega
  · show d.origin.x + origin.x + len d.text ≤ origin.x + s.x
    omega
  · show origin.y ≤ d.origin.y + origin.y
    omega
  · show d.origin.y + origin.y < origin.y + s.y
    omega

/-- Texts in a region of the screen that do not meet. -/
structure Confined (r : Rect) (drawn : List Drawn) : Prop where
  within : ∀ d ∈ drawn, d.Within r
  apart : drawn.Pairwise Drawn.Apart

theorem confined_nil (r : Rect) : Confined r [] := ⟨List.forall_mem_nil _, .nil⟩

theorem Drawn.Within.confined {d : Drawn} {r : Rect} (h : d.Within r) : Confined r [d] :=
  ⟨List.forall_mem_singleton.mpr h, List.pairwise_singleton _ _⟩

theorem Drawn.Apart.place {d e : Drawn} (h : d.Apart e) (origin : Point) :
    (d.place origin).Apart (e.place origin) := by
  intro hrow
  have hrow' : d.origin.y + origin.y = e.origin.y + origin.y := hrow
  show d.origin.x + origin.x + len d.text ≤ e.origin.x + origin.x ∨
    e.origin.x + origin.x + len e.text ≤ d.origin.x + origin.x
  rcases h (by omega) with h | h
  · exact Or.inl (by omega)
  · exact Or.inr (by omega)

/-- What a subview draws, in the coordinates of its superview. -/
theorem Confined.place {s : Size} {drawn : List Drawn} (h : Confined ⟨⟨0, 0⟩, s⟩ drawn)
    (origin : Point) : Confined ⟨origin, s⟩ (drawn.map (Drawn.place origin)) := by
  constructor
  · intro d hd
    obtain ⟨e, he, rfl⟩ := List.mem_map.mp hd
    exact (h.within e he).place origin
  · exact List.pairwise_map.mpr (h.apart.imp fun hapart => hapart.place origin)

/-- A subview and what it draws, in a region of a view in which it is confined. -/
structure Part (fuel : Nat) (r : Rect) where
  region : Rect
  label : Label
  frame : Rect
  drawn : List Drawn
  draws : label.draw fuel frame.size = some (.ok drawn)
  confined : Confined region (drawn.map (Drawn.place frame.origin))
  inside (d : Drawn) : d.Within region → d.Within r

/-- Subviews in regions that do not meet are drawn so that no text covers another one. -/
theorem Part.draw_all {fuel : Nat} {r : Rect} (parts : List (Part fuel r))
    (hapart : (parts.map Part.region).Pairwise Rect.Separate) :
    ∃ drawn, drawLabels fuel (parts.map fun p => (p.label, p.frame)) = some (.ok drawn) ∧
      Confined r drawn ∧ ∀ p ∈ parts, ∀ d ∈ p.drawn, d.place p.frame.origin ∈ drawn := by
  refine ⟨parts.flatMap fun p => p.drawn.map (Drawn.place p.frame.origin), ?_, ⟨?_, ?_⟩, ?_⟩
  · clear hapart
    induction parts with
    | nil => rfl
    | cons p parts ih =>
        rw [List.map_cons, drawLabels]
        simp only [p.draws, ih]
        rfl
  · intro d hd
    obtain ⟨p, -, hd⟩ := List.mem_flatMap.mp hd
    exact p.inside d (p.confined.within d hd)
  · refine List.pairwise_flatMap.mpr ⟨fun p _ => p.confined.apart, ?_⟩
    refine (List.pairwise_map.mp hapart).imp fun {p q} hsep d hd e he => ?_
    exact (p.confined.within d hd).apart (q.confined.within e he) hsep
  · intro p hp d hd
    exact List.mem_flatMap.mpr ⟨p, hp, List.mem_map.mpr ⟨d, hd, rfl⟩⟩

/-- Texts that are drawn one below the other. -/
theorem confined_rows {r : Rect} {drawn : List Drawn}
    (h : ∀ (i : Nat) (d : Drawn), drawn[i]? = some d → d.origin.y = i ∧ d.Within r) :
    Confined r drawn := by
  constructor
  · intro d hd
    obtain ⟨i, hi⟩ := List.mem_iff_getElem?.mp hd
    exact (h i d hi).2
  · refine List.pairwise_iff_getElem.mpr fun i j hi hj hlt hrow => ?_
    obtain ⟨hy, -⟩ := h i _ (List.getElem?_eq_getElem hi)
    obtain ⟨hy', -⟩ := h j _ (List.getElem?_eq_getElem hj)
    omega

/-- A label of one line draws within its frame, and nothing if it has no text. -/
theorem Label.draw_confined (fuel : Nat) {label : Label} {s : Size} (hwrap : label.wrap = false)
    (hs : 0 ≤ s.x) (hrow : 0 < s.y) :
    ∃ drawn, label.draw fuel s = some (.ok drawn) ∧ (label.text = [] → drawn = []) ∧
      Confined ⟨⟨0, 0⟩, s⟩ drawn := by
  by_cases hempty : label.text = []
  · have hlines : label.lines fuel s = some (.ok []) := by
      rw [Label.lines, if_pos (by simpa using hempty)]
    exact ⟨[], by simp only [Label.draw, hlines, Label.drawLines], fun _ => rfl, confined_nil _⟩
  · obtain ⟨d, hdraw, -, hwithin⟩ := Label.draw_single fuel hwrap hs hrow hempty
    exact ⟨[d], hdraw, fun hno => absurd hno hempty, hwithin.confined⟩

theorem setFrame_eq {x y w h : Int} (hx : 0 ≤ x) (hy : 0 ≤ y) (hw : 0 ≤ w) (hh : 0 ≤ h) :
    setFrame ⟨⟨x, y⟩, ⟨w, h⟩⟩ = ⟨⟨x, y⟩, ⟨w, h⟩⟩ := by
  simp only [setFrame, Menu.setOrigin, Menu.setSize, Int.max_eq_right hx, Int.max_eq_right hy,
    Int.max_eq_right hw, Int.max_eq_right hh]

namespace CommitPanel

/-! ## What a panel shows -/

variable {id : Commit → Oid} {panel : CommitPanel} {fuel : Nat}

theorem offY_cases (panel : CommitPanel) :
    panel.header = [] ∧ panel.offY = 0 ∧ panel.gap = ascii " " ∨
      panel.header ≠ [] ∧ panel.offY = 1 ∧ panel.gap = [] := by
  by_cases hempty : panel.header = []
  · exact Or.inl ⟨hempty, by simp [offY, hempty], by simp [gap, hempty]⟩
  · exact Or.inr ⟨hempty, by simp [offY, hempty], by simp [gap, hempty]⟩

theorem offY_bounds (panel : CommitPanel) : 0 ≤ panel.offY ∧ panel.offY ≤ 1 := by
  rcases offY_cases panel with ⟨-, hoff, -⟩ | ⟨-, hoff, -⟩
  · omega
  · omega

theorem gap_columns (panel : CommitPanel) :
    panel.gap.length ≤ 1 ∧ ∀ b ∈ panel.gap, isAscii b = true := by
  rcases offY_cases panel with ⟨-, -, hgap⟩ | ⟨-, -, hgap⟩
  · rw [hgap]
    exact ⟨le_refl 1, List.forall_mem_singleton.mpr rfl⟩
  · rw [hgap]
    exact ⟨Nat.zero_le 1, List.forall_mem_nil _⟩

/-- `_id` as it is printed. -/
def idText (id : Commit → Oid) (panel : CommitPanel) : Bytes :=
  panel.gap ++ displayStringForId (id panel.commit) commitIdWidth ++ panel.gap

/-- `_time` as it is printed. -/
def timeText (panel : CommitPanel) : Bytes := panel.gap ++ panel.time ++ panel.gap

theorem idText_columns (id : Commit → Oid) (panel : CommitPanel) :
    (idText id panel).length ≤ 9 ∧ ∀ b ∈ idText id panel, isAscii b = true := by
  obtain ⟨hgap, hgapAscii⟩ := gap_columns panel
  have hid := length_displayStringForId (id panel.commit) (show commitIdWidth ≤ 40 by decide)
  have hwidth : commitIdWidth = 7 := rfl
  constructor
  · simp only [idText, List.length_append]
    omega
  · intro b hb
    simp only [idText, List.mem_append] at hb
    rcases hb with (hb | hb) | hb
    · exact hgapAscii b hb
    · exact isAscii_of_mem_displayStringForId hb
    · exact hgapAscii b hb

theorem timeText_columns (panel : CommitPanel) :
    panel.time ≠ [] ∧ (timeText panel).length ≤ 18 ∧ ∀ b ∈ timeText panel, isAscii b = true := by
  obtain ⟨hgap, hgapAscii⟩ := gap_columns panel
  have hdated := panel.dated
  unfold shortStringForTime at hdated
  cases htm : gmtime (panel.commit.author.when.time + panel.commit.author.when.offset * 60) with
  | none =>
      rw [htm] at hdated
      cases hdated
  | some tm =>
      rw [htm] at hdated
      obtain ⟨hlow, hhigh, hascii⟩ := shortDate_columns htm
      rw [Except.ok.inj hdated] at hlow hhigh hascii
      refine ⟨fun hno => ?_, ?_, fun b hb => ?_⟩
      · rw [hno] at hlow
        exact absurd hlow (by decide)
      · simp only [timeText, List.length_append]
        omega
      · simp only [timeText, List.mem_append] at hb
        rcases hb with (hb | hb) | hb
        · exact hgapAscii b hb
        · exact hascii b hb
        · exact hgapAscii b hb

/-- What is drawn in a panel of a size, with `shown` for the lines of the message. -/
structure Drawing (id : Commit → Oid) (panel : CommitPanel) (width height : Int)
    (shown : List Bytes) (drawn : List Drawn) : Prop where
  /-- No text covers another one, and none of them the last row, which is the border. -/
  confined : Confined ⟨⟨0, 0⟩, ⟨width, height - 1⟩⟩ drawn
  id : ⟨⟨textInset, panel.offY⟩, idText id panel⟩ ∈ drawn
  time : ⟨⟨width - textInset - (timeText panel).length, panel.offY⟩, timeText panel⟩ ∈ drawn
  /-- The rows between the author and the border are those of the message. -/
  rows : height = panel.offY + 3 + shown.length
  message (i : Nat) (l : Bytes) : shown[i]? = some l →
    ∃ d ∈ drawn, d.origin = ⟨textInset, panel.offY + 2 + i⟩ ∧ d.text <+: l ∧
      (AtStart l → d.text = l)

/-- A wrapped line is drawn as it is, unless it begins in the middle of a code point. -/
theorem line_message (panel : CommitPanel) {s : Size} {l t : Bytes}
    (h : panel.messageLabel.line s l = some t) :
    t <+: l ∧ ((len l : Int) ≤ s.x → AtStart l → t = l) := by
  constructor
  · unfold Label.line at h
    obtain ⟨base, hbase, hline⟩ := Option.bind_eq_some_iff.mp h
    obtain ⟨r, q, hr, hsplit, -⟩ :=
      UTF8.truncateTail_spec l (panel.messageLabel.availBaseWidth s).toNat
    obtain ⟨r', q', hr', hsplit', -⟩ := UTF8.truncateTail_spec ([] ++ base ++ []) s.x.toNat
    obtain rfl : r = base := Option.some.inj (hr.symm.trans hbase)
    obtain rfl : r' = t := Option.some.inj (hr'.symm.trans hline)
    rw [List.nil_append, List.append_nil] at hsplit'
    rw [hsplit, hsplit', List.append_assoc]
    exact List.prefix_append _ _
  · intro hfits hstart
    have hself : panel.messageLabel.line s l = some ([] ++ l ++ []) :=
      Label.line_eq_self (by simpa [Label.drawPrefix, Label.drawSuffix, messageLabel] using hstart)
        hstart (by simpa [Label.drawPrefix, Label.drawSuffix, messageLabel] using hfits)
    rw [List.nil_append, List.append_nil] at hself
    exact Option.some.inj (h.symm.trans hself)

/-- The parts of a panel take regions that do not meet. -/
theorem separate_regions (width offY rows : Int) (merge : Bool) :
    List.Pairwise Rect.Separate ([⟨⟨3, 0⟩, ⟨width - 3, offY⟩⟩, ⟨⟨2, offY⟩, ⟨9, 1⟩⟩,
      ⟨⟨11, offY⟩, ⟨width - 13, 1⟩⟩, ⟨⟨2, offY + 1⟩, ⟨width - 4, 1⟩⟩,
      ⟨⟨2, offY + 2⟩, ⟨width - 4, rows⟩⟩] ++ if merge then [⟨⟨0, 1⟩, ⟨1, 1⟩⟩] else []) := by
  cases merge with
  | false =>
    simp only [Bool.false_eq_true, if_false, List.append_nil, List.pairwise_cons,
      List.forall_mem_cons, List.not_mem_nil, IsEmpty.forall_iff, implies_true, and_true,
      List.Pairwise.nil, Rect.Separate, Rect.l, Rect.r, Rect.t, Rect.b]
    omega
  | true =>
    simp only [if_true, List.cons_append, List.nil_append, List.pairwise_cons,
      List.forall_mem_cons, List.not_mem_nil, IsEmpty.forall_iff, implies_true, and_true,
      List.Pairwise.nil, Rect.Separate, Rect.l, Rect.r, Rect.t, Rect.b]
    omega

theorem messageSize_eq (panel : CommitPanel) {k : Nat} (hk : 0 < k)
    (hlimit : (k : Int) < constraintNone)
    (hfuel : LineWrap.enough { width := some k } panel.commit.message ≤ fuel) :
    ∃ full, LineWrap.wrap fuel { width := some k } panel.commit.message = some (.ok full) ∧
      (∀ l ∈ full, len l ≤ k) ∧
      panel.messageSize fuel (k + 4) = some (.ok ⟨k, (min 2 full.length : Nat)⟩) := by
  obtain ⟨full, hfull, hfits, hsize⟩ :=
    @Label.sizeIntrinsic_wrap panel.messageLabel k rfl hk hlimit fuel hfuel
  refine ⟨full, hfull, hfits, ?_⟩
  have hinner : (k : Int) + 4 - 2 * textInset = k := by
    unfold textInset
    omega
  have hrows : min messageLineCountMax (full.length : Int) = (min 2 full.length : Nat) := by
    unfold messageLineCountMax
    omega
  unfold messageSize
  rw [hinner, hsize]
  dsimp only
  rw [hrows]

/-- The header is above the id, or there is none. -/
theorem draw_header (panel : CommitPanel) (fuel : Nat) {width : Int} (hwidth : 3 ≤ width) :
    ∃ drawn, panel.headerLabel.draw fuel ⟨width - 3, 1⟩ = some (.ok drawn) ∧
      Confined ⟨⟨3, 0⟩, ⟨width - 3, panel.offY⟩⟩ (drawn.map (Drawn.place ⟨3, 0⟩)) := by
  have hs : 0 ≤ (⟨width - 3, 1⟩ : Size).x := by
    show 0 ≤ width - 3
    omega
  obtain ⟨drawn, hdraw, hnone, hconfined⟩ := @Label.draw_confined fuel panel.headerLabel _ rfl hs
    Int.one_pos
  refine ⟨drawn, hdraw, ?_⟩
  rcases offY_cases panel with ⟨hempty, -, -⟩ | ⟨-, hone, -⟩
  · rw [hnone hempty]
    exact confined_nil _
  · rw [hone]
    exact hconfined.place ⟨3, 0⟩

/-- The id takes at most the first columns of its row. -/
theorem draw_id (id : Commit → Oid) (panel : CommitPanel) (fuel : Nat) {width : Int}
    (hwidth : 13 ≤ width) :
    (idLabel id panel).draw fuel ⟨width - 4, 1⟩ = some (.ok [⟨⟨0, 0⟩, idText id panel⟩]) ∧
      Drawn.Within (.place ⟨2, panel.offY⟩ ⟨⟨0, 0⟩, idText id panel⟩)
        ⟨⟨2, panel.offY⟩, ⟨9, 1⟩⟩ := by
  obtain ⟨hlength, hascii⟩ := idText_columns id panel
  have hlen := len_of_ascii hascii
  have hne : displayStringForId (id panel.commit) commitIdWidth ≠ [] := by
    intro hno
    have hdigits := length_displayStringForId (id panel.commit) (show commitIdWidth ≤ 40 by decide)
    rw [hno] at hdigits
    cases hdigits
  have hfits : ((idText id panel).length : Int) ≤ (⟨width - 4, 1⟩ : Size).x := by
    show ((idText id panel).length : Int) ≤ width - 4
    omega
  refine ⟨Label.draw_fits fuel rfl Int.one_pos hne rfl hascii hfits, ⟨?_, ?_, ?_, ?_⟩⟩
  · show (2 : Int) ≤ 0 + 2
    omega
  · show 0 + 2 + (len (idText id panel) : Int) ≤ 2 + 9
    omega
  · show panel.offY ≤ 0 + panel.offY
    omega
  · show 0 + panel.offY < panel.offY + 1
    omega

/-- The date is right of the id, with all of its text. -/
theorem draw_time (panel : CommitPanel) (fuel : Nat) {width : Int} (hwidth : 31 ≤ width) :
    panel.timeLabel.draw fuel ⟨width - 2, 1⟩ =
        some (.ok [⟨⟨width - 2 - (timeText panel).length, 0⟩, timeText panel⟩]) ∧
      Drawn.Within (.place ⟨0, panel.offY⟩
        ⟨⟨width - 2 - (timeText panel).length, 0⟩, timeText panel⟩)
        ⟨⟨11, panel.offY⟩, ⟨width - 13, 1⟩⟩ := by
  obtain ⟨hne, hlength, hascii⟩ := timeText_columns panel
  have hlen := len_of_ascii hascii
  have hfits : ((timeText panel).length : Int) ≤ (⟨width - 2, 1⟩ : Size).x := by
    show ((timeText panel).length : Int) ≤ width - 2
    omega
  have hoff : panel.timeLabel.offX ⟨width - 2, 1⟩ 1 (timeText panel).length =
      width - 2 - (timeText panel).length := by
    show max 0 (width - 2 - ((timeText panel).length : Int)) = _
    omega
  refine ⟨?_, ⟨?_, ?_, ?_, ?_⟩⟩
  · have hdraw : panel.timeLabel.draw fuel ⟨width - 2, 1⟩ = some (.ok
        [⟨⟨panel.timeLabel.offX ⟨width - 2, 1⟩ 1 (timeText panel).length, 0⟩, timeText panel⟩]) :=
      Label.draw_fits fuel rfl Int.one_pos hne rfl hascii hfits
    rw [hdraw, hoff]
  · show 11 ≤ width - 2 - ((timeText panel).length : Int) + 0
    omega
  · show width - 2 - ((timeText panel).length : Int) + 0 + len (timeText panel) ≤ 11 + (width - 13)
    omega
  · show panel.offY ≤ 0 + panel.offY
    omega
  · show 0 + panel.offY < panel.offY + 1
    omega

/-- The frames of the labels in a panel that is not narrower than their insets. -/
theorem labels_eq (id : Commit → Oid) (panel : CommitPanel) {s ms : Size} (hwidth : 4 ≤ s.x)
    (hx : 0 ≤ ms.x) (hy : 0 ≤ ms.y) (hmax : ms.y ≤ 2) :
    panel.labels id s ms =
      [(panel.headerLabel, ⟨⟨3, 0⟩, ⟨s.x - 3, 1⟩⟩),
        (panel.idLabel id, ⟨⟨2, panel.offY⟩, ⟨s.x - 4, 1⟩⟩),
        (panel.timeLabel, ⟨⟨0, panel.offY⟩, ⟨s.x - 2, 1⟩⟩),
        (panel.authorLabel, ⟨⟨2, panel.offY + 1⟩, ⟨s.x - 4, 1⟩⟩),
        (panel.messageLabel, ⟨⟨2, panel.offY + 2⟩, ms⟩)] ++
      if panel.commit.isMerge then [(mergeSymbolLabel, ⟨⟨0, 1⟩, ⟨1, 1⟩⟩)] else [] := by
  obtain ⟨hoff, -⟩ := offY_bounds panel
  have hthree : textInset + 1 = 3 := rfl
  have hfour : 2 * textInset = 4 := rfl
  have htwo : textInset = 2 := rfl
  have hrows : min messageLineCountMax ms.y = ms.y := by
    unfold messageLineCountMax
    omega
  unfold labels
  rw [hthree, hfour, htwo, hrows, setFrame_eq (by omega) (by omega) (by omega) (by omega),
    setFrame_eq (by omega) hoff (by omega) (by omega),
    setFrame_eq (by omega) hoff (by omega) (by omega),
    setFrame_eq (by omega) (by omega) (by omega) (by omega),
    setFrame_eq (by omega) (by omega) hx hy,
    setFrame_eq (by omega) (by omega) (by omega) (by omega)]

/-- A commit whose message takes more than two rows. -/
def engine : Commit :=
  .mk ⟨1⟩ []
    { author := ⟨ascii "Ada", ascii "ada@engine", ⟨1700000000, 60⟩⟩
      committer := ⟨ascii "Ada", ascii "ada@engine", ⟨1700000000, 60⟩⟩
      encoding := none
      rawMessage := ascii "Let the analytical engine compute the numbers of Bernoulli\n"
      extraHeaders := [] }

/-- Its panel. -/
def enginePanel : CommitPanel := ⟨engine, ascii "Tue Nov 14 23:13", [], by decide +kernel⟩

end CommitPanel
end Ui
end Debase
