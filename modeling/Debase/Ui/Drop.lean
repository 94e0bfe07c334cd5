import Debase.Git.Modify
import Debase.Ui.RevColumn

/-!
# Dropping commits on a column

While commits are dragged, `_findInsertionPosition` looks for the gap nearest to
the mouse, over all columns, and the drop builds a move or a copy whose position
is the commit of the panel below that gap.  The gap below the last panel has no
panel below it: the operation then inserts below the root, also when the branch
goes on below the window.
-/

namespace Debase
namespace Ui

open Git

/-- `_Selection`. -/
structure Selection where
  rev : Option Rev
  commits : Finset Commit
deriving DecidableEq

/-- `_InsertionPosition`: a column and a place among its panels. -/
structure InsertionPosition where
  col : RevColumn
  iter : Nat
deriving DecidableEq

/-- The nearest gap so far and the square of its distance. -/
structure Nearest where
  gap : InsertionPosition
  distance : Int
deriving DecidableEq

/-- The square of the distance of two points. -/
def distance (p q : Point) : Int := (p.x - q.x) * (p.x - q.x) + (p.y - q.y) * (p.y - q.y)

section Insertion

variable (height : Commit → Int)

/-- The points of the gaps of a column: above each panel, and below the last
one.  A column without panels has no gap. -/
def gapPoints (col : RevColumn) : List Point :=
  match (col.frames height).getLast? with
  | none => []
  | some last =>
      (col.frames height).map (fun r => ⟨r.origin.x + r.size.x.tdiv 2, r.origin.y⟩) ++
        [⟨last.origin.x + last.size.x.tdiv 2, last.origin.y + last.size.y⟩]

/-- The gaps of a column with their points. -/
def gaps (col : RevColumn) : List (InsertionPosition × Point) :=
  (gapPoints height col).mapIdx fun i q => (⟨col, i⟩, q)

/-- One turn of the inner loop of `_findInsertionPosition`: the first of several
nearest gaps stays. -/
def nearer (p : Point) (best : Option Nearest) (gap : InsertionPosition × Point) :
    Option Nearest :=
  let dist := distance p gap.2
  match best with
  | none => some ⟨gap.1, dist⟩
  | some b => if dist < b.distance then some ⟨gap.1, dist⟩ else some b

/-- The two loops of `_findInsertionPosition`. -/
def nearestGap (columns : List RevColumn) (p : Point) : Option Nearest :=
  (columns.flatMap (gaps height)).foldl (nearer p) none

/-- `_selected`. -/
def selected (selection : Selection) (col : RevColumn) (commit : Commit) : Bool :=
  commit ∈ selection.commits && some col.rev = selection.rev

/-- The loop at the end of `_findInsertionPosition`: the gap is moved up out of a
selection. -/
def outOfSelection (selection : Selection) (col : RevColumn) : Nat → Nat
  | 0 => 0
  | i + 1 =>
      match col.panels[i]? with
      | some prevPanel => if selected selection col prevPanel then outOfSelection selection col i else i + 1
      | none => i + 1

/-- `_findInsertionPosition`. -/
def findInsertionPosition (columns : List RevColumn) (selection : Selection) (p : Point) :
    Option InsertionPosition :=
  match nearestGap height columns p with
  | none => none
  | some b =>
      if !b.gap.col.rev.isMutable then none
      else some ⟨b.gap.col, outOfSelection selection b.gap.col b.gap.iter⟩

/-- The operation that `_trackMouseInsideCommitPanel` builds on a drop. -/
def dropOp (selection : Selection) (copy : Bool) (ipos : InsertionPosition) : Modify.Op where
  type := if copy then .copy else .move
  src := ⟨selection.rev, selection.commits⟩
  dst := ⟨some ipos.col.rev, ipos.col.panels[ipos.iter]?⟩

end Insertion

/-! ## The gap that is found -/

section Found

variable {height : Commit → Int}

theorem length_gapPoints (col : RevColumn) (hpanels : col.panels ≠ []) :
    (gapPoints height col).length = col.panels.length + 1 := by
  unfold gapPoints
  cases hlast : (col.frames height).getLast? with
  | none =>
      have hnil := List.getLast?_eq_none_iff.mp hlast
      have hlen := length_frames height col
      rw [hnil, List.length_nil, eq_comm, List.length_eq_zero_iff] at hlen
      exact absurd hlen hpanels
  | some last => simp

/-- The gaps of a column are above its panels and below the last one, and a
column without panels has none. -/
theorem mem_gaps {col : RevColumn} {gap : InsertionPosition} {q : Point}
    (h : (gap, q) ∈ gaps height col) :
    gap.col = col ∧ gap.iter ≤ col.panels.length ∧ col.panels ≠ [] := by
  unfold gaps at h
  obtain ⟨i, hi, heq⟩ := List.mem_mapIdx.mp h
  have hpanels : col.panels ≠ [] := by
    intro hnil
    have hframes : col.frames height = [] := by
      apply List.eq_nil_of_length_eq_zero
      rw [length_frames, hnil, List.length_nil]
    simp [gapPoints, hframes] at hi
  rw [length_gapPoints col hpanels] at hi
  cases heq
  refine ⟨rfl, ?_, hpanels⟩
  show i ≤ col.panels.length
  omega

/-- One turn keeps the nearest of the gaps seen. -/
theorem nearer_step (p : Point) (best : Option Nearest) (gap : InsertionPosition × Point) :
    ∃ b, nearer p best gap = some b ∧ b.distance ≤ distance p gap.2 ∧
      (∀ b', best = some b' → b.distance ≤ b'.distance) ∧
      (best = some b ∨ (b.gap = gap.1 ∧ b.distance = distance p gap.2)) := by
  cases best with
  | none => exact ⟨_, rfl, le_refl _, by simp, Or.inr ⟨rfl, rfl⟩⟩
  | some b' =>
      by_cases hlt : distance p gap.2 < b'.distance
      · refine ⟨⟨gap.1, distance p gap.2⟩, by simp [nearer, hlt], le_refl _, ?_, Or.inr ⟨rfl, rfl⟩⟩
        rintro _ ⟨⟩
        exact le_of_lt hlt
      · refine ⟨b', by simp [nearer, hlt], not_lt.mp hlt, ?_, Or.inl rfl⟩
        rintro _ ⟨⟩
        exact le_refl _

/-- The loops end with a gap that was seen, and no gap is nearer. -/
theorem foldl_nearer (p : Point) (l : List (InsertionPosition × Point)) {best : Option Nearest}
    {b : Nearest} (h : l.foldl (nearer p) best = some b) :
    (∀ gap ∈ l, b.distance ≤ distance p gap.2) ∧
      (∀ b', best = some b' → b.distance ≤ b'.distance) ∧
      (best = some b ∨ ∃ q, (b.gap, q) ∈ l ∧ b.distance = distance p q) := by
  induction l generalizing best with
  | nil =>
      rw [List.foldl_nil] at h
      subst h
      refine ⟨by simp, ?_, Or.inl rfl⟩
      rintro _ ⟨⟩
      exact le_refl _
  | cons gap l ih =>
      obtain ⟨b₁, hstep, hgap, hbest, hfrom⟩ := nearer_step p best gap
      rw [List.foldl_cons, hstep] at h
      obtain ⟨hall, hle, hseen⟩ := ih h
      have hb₁ : b.distance ≤ b₁.distance := hle b₁ rfl
      refine ⟨?_, fun b' hb' => le_trans hb₁ (hbest b' hb'), ?_⟩
      · intro g hg
        rcases List.mem_cons.mp hg with rfl | hg
        · exact le_trans hb₁ hgap
        · exact hall g hg
      · rcases hseen with heq | ⟨q, hq, hdist⟩
        · cases heq
          rcases hfrom with hold | ⟨hnew, hdist⟩
          · exact Or.inl hold
          · refine Or.inr ⟨gap.2, ?_, hdist⟩
            rw [hnew]
            exact List.mem_cons_self
        · exact Or.inr ⟨q, List.mem_cons_of_mem _ hq, hdist⟩

theorem outOfSelection_le (selection : Selection) (col : RevColumn) (i : Nat) :
    outOfSelection selection col i ≤ i := by
  induction i with
  | zero => exact le_refl _
  | succ i ih =>
      unfold outOfSelection
      split
      · split
        · omega
        · exact le_refl _
      · exact le_refl _

/-- The gap of a drop belongs to one of the columns, which has panels and may be
changed. -/
theorem findInsertionPosition_some {columns : List RevColumn} {selection : Selection}
    {p : Point} {ipos : InsertionPosition}
    (h : findInsertionPosition height columns selection p = some ipos) :
    ipos.col ∈ columns ∧ ipos.col.panels ≠ [] ∧ ipos.iter ≤ ipos.col.panels.length ∧
      ipos.col.rev.isMutable = true := by
  unfold findInsertionPosition at h
  cases hnearest : nearestGap height columns p with
  | none => simp [hnearest] at h
  | some b =>
      simp only [hnearest] at h
      split at h
      · cases h
      · next hmutable =>
          cases h
          obtain ⟨-, -, hseen⟩ := foldl_nearer p _ hnearest
          rcases hseen with hnone | ⟨q, hq, -⟩
          · cases hnone
          · obtain ⟨col, hcol, hgap⟩ := List.mem_flatMap.mp hq
            obtain ⟨rfl, hle, hpanels⟩ := mem_gaps hgap
            have hout := outOfSelection_le selection b.gap.col b.gap.iter
            exact ⟨hcol, hpanels, le_trans hout hle, by simpa using hmutable⟩

end Found

/-! ## The commit below the gap -/

/-- The commit of the branch directly below a gap of a column. -/
def commitBelow (ipos : InsertionPosition) : Option Commit :=
  ipos.col.rev.commit.chain[ipos.col.rev.skip + ipos.iter]?

/-- The commit of the branch directly above a gap of a column. -/
def commitAbove (ipos : InsertionPosition) : Option Commit :=
  if ipos.col.rev.skip + ipos.iter = 0 then none
  else ipos.col.rev.commit.chain[ipos.col.rev.skip + ipos.iter - 1]?

/-- The position of an operation is the commit below the gap, and null only below
the root. -/
def PositionBelowGap (op : Modify.Op) (ipos : InsertionPosition) : Prop :=
  op.dst.position = commitBelow ipos ∧
    (op.dst.position = none → ∃ c, commitAbove ipos = some c ∧ c.parents = [])

/-- The branch ends with the last panel of the column. -/
def ShowsRoot (col : RevColumn) : Prop :=
  col.rev.commit.chain.length = col.rev.skip + col.panels.length

instance (col : RevColumn) : Decidable (ShowsRoot col) := inferInstanceAs (Decidable (_ = _))

/-- The root is the last commit of a chain. -/
theorem parents_getElem?_chain {c d : Commit} (h : c.chain[c.chain.length - 1]? = some d) :
    d.parents = [] := by
  rw [← List.getLast?_eq_getElem?] at h
  obtain ⟨above, hsplit⟩ : ∃ above, c.chain = above ++ [d] := by
    have := List.dropLast_append_getLast? d h
    exact ⟨_, this.symm⟩
  have hnone : chainOf d.parent = [] := (chain_suffix hsplit).symm
  have hparent : d.parent = none := by
    rw [← head?_chainOf d.parent, hnone]
    rfl
  simpa [Commit.parent] using hparent

section Position

variable {height : Commit → Int}

/-- A drop on a reloaded column inserts directly above the commit below the gap
exactly when the gap is above a panel, or the branch ends with the last panel. -/
theorem dropOp_position_iff {columns : List RevColumn} {selection : Selection} {p : Point}
    {ipos : InsertionPosition} (copy : Bool)
    (h : findInsertionPosition height (columns.map (RevColumn.reload height)) selection p =
      some ipos) :
    PositionBelowGap (dropOp selection copy ipos) ipos ↔
      ipos.iter < ipos.col.panels.length ∨ ShowsRoot ipos.col := by
  obtain ⟨hcol, hpanels, hiter, -⟩ := findInsertionPosition_some h
  obtain ⟨old, -, hold⟩ := List.mem_map.mp hcol
  have hpanel : ∀ i, i < ipos.col.panels.length →
      ipos.col.panels[i]? = ipos.col.rev.commit.chain[ipos.col.rev.skip + i]? := by
    intro i hi
    rw [← hold] at hi ⊢
    exact getElem?_panels_reload height old hi
  have hpositive : 0 < ipos.col.panels.length := List.length_pos_iff.mpr hpanels
  have hposition : (dropOp selection copy ipos).dst.position = ipos.col.panels[ipos.iter]? := rfl
  unfold PositionBelowGap commitBelow
  rw [hposition]
  by_cases hlt : ipos.iter < ipos.col.panels.length
  · -- there is a panel below the gap
    have hsome : ipos.col.panels[ipos.iter]? ≠ none := by simpa using hlt
    have hsame := hpanel ipos.iter hlt
    refine iff_of_true ⟨hsame, fun hnone => absurd hnone hsome⟩ (Or.inl hlt)
  · have heq : ipos.iter = ipos.col.panels.length := by omega
    have hnone : ipos.col.panels[ipos.iter]? = none := by simp [heq]
    rw [hnone]
    -- the commit of the last panel is above the gap
    have habove : commitAbove ipos =
        ipos.col.rev.commit.chain[ipos.col.rev.skip + ipos.col.panels.length - 1]? := by
      unfold commitAbove
      rw [heq, if_neg (by omega)]
    have hlast := hpanel (ipos.col.panels.length - 1) (by omega)
    constructor
    · rintro ⟨hbelow, -⟩
      refine Or.inr ?_
      have hle : ipos.col.rev.commit.chain.length ≤
          ipos.col.rev.skip + ipos.col.panels.length := by
        rw [heq, eq_comm, List.getElem?_eq_none_iff] at hbelow
        exact hbelow
      have hge : ipos.col.rev.skip + (ipos.col.panels.length - 1) <
          ipos.col.rev.commit.chain.length := by
        by_contra hout
        rw [List.getElem?_eq_none (not_lt.mp hout), List.getElem?_eq_none_iff] at hlast
        omega
      unfold ShowsRoot
      omega
    · rintro (hlt' | hroot)
      · exact absurd hlt' hlt
      · unfold ShowsRoot at hroot
        refine ⟨?_, fun _ => ?_⟩
        · rw [heq, eq_comm, List.getElem?_eq_none_iff]
          omega
        · rw [habove, ← hroot]
          have hchain : 0 < ipos.col.rev.commit.chain.length := by
            simp [List.length_pos_iff]
          have hlt' : ipos.col.rev.commit.chain.length - 1 <
              ipos.col.rev.commit.chain.length := by omega
          have hd := List.getElem?_eq_getElem hlt'
          exact ⟨_, hd, parents_getElem?_chain hd⟩

end Position

end Ui

/-! ## A branch that goes on below the window -/

namespace TallBranch

open Git Ui

def commit (message : String) (parents : List Commit) : Commit :=
  .mk ⟨0⟩ parents ⟨⟨[], [], ⟨0, 0⟩⟩, ⟨[], [], ⟨0, 0⟩⟩, none, ascii message, []⟩

/-- The root of the branch. -/
def root : Commit := commit "root" []

/-- The head of the branch. -/
def head : Commit := commit "head" [root]

/-- The commit that is dragged. -/
def other : Commit := commit "other" []

def rev (branch : String) (c : Commit) : Rev := ⟨⟨c, some ⟨ascii branch, c, none⟩⟩, 0, .allowed⟩

/-- All panels are as high as a commit with a one-line message. -/
def height (_ : Commit) : Int := 4

/-- A column with room for one panel. -/
def column : RevColumn := ⟨rev "refs/heads/main" head, ⟨⟨0, 0⟩, ⟨20, 10⟩⟩, [], false, false⟩

/-- The column of the dragged commit. -/
def topicColumn : RevColumn := ⟨rev "refs/heads/topic" other, ⟨⟨24, 0⟩, ⟨20, 10⟩⟩, [], false, false⟩

/-- The dragged commit is the head of another branch. -/
def selection : Selection := ⟨some (rev "refs/heads/topic" other), {other}⟩

/-- The gap at a height in the window. -/
def gapAt (y : Int) : Option InsertionPosition :=
  findInsertionPosition height ([column, topicColumn].map (RevColumn.reload height)) selection
    ⟨10, y⟩

/-- A drop above the panel inserts above the head. -/
theorem position_aboveHead :
    gapAt 5 = some ⟨column.reload height, 0⟩ ∧
      PositionBelowGap (dropOp selection true ⟨column.reload height, 0⟩)
        ⟨column.reload height, 0⟩ :=
  ⟨by decide, (dropOp_position_iff true (by decide : gapAt 5 = _)).mpr (Or.inl (by decide))⟩

/-- A drop below the panel inserts below the root, not above it. -/
theorem position_belowWindow :
    gapAt 9 = some ⟨column.reload height, 1⟩ ∧
      (dropOp selection true ⟨column.reload height, 1⟩).dst.position = none ∧
      commitBelow ⟨column.reload height, 1⟩ = some root ∧
      ¬PositionBelowGap (dropOp selection true ⟨column.reload height, 1⟩)
        ⟨column.reload height, 1⟩ := by
  refine ⟨by decide, by decide, by decide, ?_⟩
  rintro ⟨hbelow, -⟩
  revert hbelow
  decide

end TallBranch

end Debase
