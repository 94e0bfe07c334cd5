import Debase.Git.Object

/-!
# Columns

`ui/RevColumn.h`: a column shows the commits of a rev from the top, as many as
fit.  `reload` reuses the panels that are there; what it ends with is `fitting`,
the longest run of commits whose panels fit, whatever panels were there before.

How high a panel is depends on the wrapped text of its commit, so `height` is a
parameter.
-/

namespace Debase
namespace Ui

open Git

/-- `Point`. -/
structure Point where
  x : Int
  y : Int
deriving DecidableEq

/-- `Size`. -/
structure Size where
  x : Int
  y : Int
deriving DecidableEq

/-- `Rect`. -/
structure Rect where
  origin : Point
  size : Size
deriving DecidableEq

/-- `RevColumn`: the rev it shows, its frame, the commits of its panels, and whether its buttons for
the history are enabled. -/
structure RevColumn where
  rev : Rev
  frame : Rect
  panels : List Commit
  undoEnabled : Bool
  redoEnabled : Bool
deriving DecidableEq

/-- `_CommitsInsetY`. -/
def commitsInsetY : Int := 5

/-- `_CommitSpacing`. -/
def commitSpacing : Int := 1

section Reload

variable (height : Commit → Int)

/-- The loop of `reload` on the chain it walks.  A panel that shows the wrong
commit is pushed down by a new one.  The result are the panels and how many of
them were placed. -/
def reloadLoop (sizeY : Int) : List Commit → Nat → Nat → Int → List Commit → List Commit × Nat
  | [], _, i, _, panels => (panels, i)
  | _ :: cs, skip + 1, i, offY, panels => reloadLoop sizeY cs skip i offY panels
  | c :: cs, 0, i, offY, panels =>
      let panels := if panels[i]? = some c then panels else panels.take i ++ c :: panels.drop i
      if sizeY - offY < height c then (panels, i)
      else reloadLoop sizeY cs 0 (i + 1) (offY + height c + commitSpacing) panels

/-- `RevColumn::reload`; the panels beyond the placed ones are erased. -/
def RevColumn.reload (col : RevColumn) : RevColumn :=
  let (panels, i) :=
    reloadLoop height col.frame.size.y col.rev.commit.chain col.rev.skip 0 commitsInsetY col.panels
  { col with panels := panels.take i }

/-- The panel frames that `RevColumn::layout` sets, in the column. -/
def panelFrames (width : Int) : Int → List Commit → List Rect
  | _, [] => []
  | offY, c :: cs =>
      ⟨⟨0, offY⟩, ⟨width, height c⟩⟩ :: panelFrames width (offY + height c + commitSpacing) cs

/-- The frames of the panels in the window (`SuperviewConvert`). -/
def RevColumn.frames (col : RevColumn) : List Rect :=
  (panelFrames height col.frame.size.x commitsInsetY col.panels).map fun r =>
    ⟨⟨r.origin.x + col.frame.origin.x, r.origin.y + col.frame.origin.y⟩, r.size⟩

/-- The longest run of commits whose panels fit a height. -/
def fitting : Int → List Commit → List Commit
  | _, [] => []
  | avail, c :: cs =>
      if avail < height c then [] else c :: fitting (avail - height c - commitSpacing) cs

@[simp] theorem length_panelFrames (width offY : Int) (cs : List Commit) :
    (panelFrames height width offY cs).length = cs.length := by
  induction cs generalizing offY with
  | nil => rfl
  | cons c cs ih => simp [panelFrames, ih]

@[simp] theorem length_frames (col : RevColumn) :
    (col.frames height).length = col.panels.length := by
  simp [RevColumn.frames]

/-- What fits is the top of the list. -/
theorem fitting_prefix (avail : Int) (cs : List Commit) : fitting height avail cs <+: cs := by
  induction cs generalizing avail with
  | nil => exact List.nil_prefix
  | cons c cs ih =>
      rw [fitting]
      split
      · exact List.nil_prefix
      · exact List.cons_prefix_cons.mpr ⟨rfl, ih _⟩

theorem getElem?_fitting {avail : Int} {cs : List Commit} {i : Nat}
    (hi : i < (fitting height avail cs).length) : (fitting height avail cs)[i]? = cs[i]? := by
  obtain ⟨rest, hrest⟩ := fitting_prefix height avail cs
  conv_rhs => rw [← hrest]
  rw [List.getElem?_append_left hi]

/-- A turn of the loop puts the commit behind the placed ones. -/
private theorem take_succ_place {panels placed : List Commit} {c : Commit} {i : Nat}
    (h : panels.take i = placed) (hi : i ≤ panels.length) :
    (if panels[i]? = some c then panels else panels.take i ++ c :: panels.drop i).take (i + 1) =
        placed ++ [c] ∧
      i + 1 ≤
        (if panels[i]? = some c then panels else panels.take i ++ c :: panels.drop i).length := by
  by_cases hc : panels[i]? = some c
  · obtain ⟨hlt, -⟩ := List.getElem?_eq_some_iff.mp hc
    rw [if_pos hc, List.take_add_one, hc, h]
    exact ⟨rfl, hlt⟩
  · have hlen : placed.length = i := by
      rw [← h]
      simpa using hi
    rw [if_neg hc, h]
    constructor
    · rw [List.take_append, hlen, List.take_of_length_le (by omega)]
      have hone : i + 1 - i = 1 := by omega
      rw [hone]
      rfl
    · simp [hlen]

/-- The loop places the commits that fit, whatever panels it finds. -/
theorem reloadLoop_take (sizeY : Int) {cs panels placed : List Commit} {skip i : Nat}
    {offY : Int} (h : panels.take i = placed) (hi : i ≤ panels.length) :
    (reloadLoop height sizeY cs skip i offY panels).1.take
        (reloadLoop height sizeY cs skip i offY panels).2 =
      placed ++ fitting height (sizeY - offY) (cs.drop skip) := by
  induction cs generalizing skip i offY panels placed with
  | nil => simpa [reloadLoop, fitting] using h
  | cons c cs ih =>
      cases skip with
      | succ skip =>
          rw [reloadLoop, List.drop_succ_cons]
          exact ih h hi
      | zero =>
          rw [reloadLoop, List.drop_zero, fitting]
          obtain ⟨hplace, hlen⟩ := take_succ_place (c := c) h hi
          split
          · -- the panel does not fit: it was made, but it is not counted
            rw [List.append_nil, ← h]
            by_cases hc : panels[i]? = some c
            · rw [if_pos hc]
            · rw [if_neg hc, List.take_append_of_le_length (by simpa using hi), List.take_take,
                Nat.min_self]
          · rw [ih hplace hlen, List.drop_zero, List.append_assoc]
            have hrest : sizeY - (offY + height c + commitSpacing) =
                sizeY - offY - height c - commitSpacing := by
              unfold commitSpacing
              omega
            rw [hrest]
            rfl

/-- Reloading shows the commits below the skipped ones, as many as fit.  The
panels that were there before make no difference. -/
theorem panels_reload (col : RevColumn) :
    (col.reload height).panels =
      fitting height (col.frame.size.y - commitsInsetY)
        (col.rev.commit.chain.drop col.rev.skip) := by
  have hstart : col.panels.take 0 = [] := rfl
  have hloop := @reloadLoop_take height col.frame.size.y col.rev.commit.chain col.panels []
    col.rev.skip 0 commitsInsetY hstart (Nat.zero_le _)
  simpa [RevColumn.reload] using hloop

@[simp] theorem rev_reload (col : RevColumn) : (col.reload height).rev = col.rev := rfl

@[simp] theorem frame_reload (col : RevColumn) : (col.reload height).frame = col.frame := rfl

/-- The commit of a panel is the one that many steps below the skipped commits. -/
theorem getElem?_panels_reload (col : RevColumn) {i : Nat}
    (hi : i < (col.reload height).panels.length) :
    (col.reload height).panels[i]? = col.rev.commit.chain[col.rev.skip + i]? := by
  rw [panels_reload] at hi ⊢
  rw [getElem?_fitting height hi, List.getElem?_drop]

/-- Panels for these commits, one below the other, all end within the column. -/
def PanelsFit (size : Size) (cs : List Commit) : Prop :=
  ∀ r ∈ panelFrames height size.x commitsInsetY cs, r.origin.y + r.size.y ≤ size.y

theorem forall_mem_panelFrames_fitting (width bottom offY : Int) (cs : List Commit) :
    ∀ r ∈ panelFrames height width offY (fitting height (bottom - offY) cs),
      r.origin.y + r.size.y ≤ bottom := by
  induction cs generalizing offY with
  | nil => simp [fitting, panelFrames]
  | cons c cs ih =>
      rw [fitting]
      split
      · simp [panelFrames]
      · next hfits =>
          have hrest : bottom - offY - height c - commitSpacing =
              bottom - (offY + height c + commitSpacing) := by omega
          rw [hrest, panelFrames]
          intro r hr
          rcases List.mem_cons.mp hr with rfl | hr
          · show offY + height c ≤ bottom
            omega
          · exact ih _ r hr

/-- Commits from the top whose panels fit are among those that `fitting` takes. -/
theorem prefix_fitting (width bottom offY : Int) {cs top : List Commit} (htop : top <+: cs)
    (hfit : ∀ r ∈ panelFrames height width offY top, r.origin.y + r.size.y ≤ bottom) :
    top <+: fitting height (bottom - offY) cs := by
  induction top generalizing cs offY with
  | nil => exact List.nil_prefix
  | cons c top ih =>
      obtain ⟨rest, rfl⟩ := htop
      have hhere : offY + height c ≤ bottom :=
        hfit ⟨⟨0, offY⟩, ⟨width, height c⟩⟩ (by simp [panelFrames])
      have hrest : bottom - offY - height c - commitSpacing =
          bottom - (offY + height c + commitSpacing) := by omega
      rw [List.cons_append, fitting, if_neg (by omega), hrest, List.cons_prefix_cons]
      refine ⟨rfl, ih _ (List.prefix_append top rest) ?_⟩
      intro r hr
      exact hfit r (by simp [panelFrames, hr])

end Reload

/-- The commits that a column has to show: the chain of its rev without the
skipped ones. -/
def RevColumn.unskipped (col : RevColumn) : List Commit := col.rev.commit.chain.drop col.rev.skip

end Ui
end Debase
