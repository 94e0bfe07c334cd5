import Debase.Git.MergeText

/-!
# What the reader makes of lines

Every line of a text has one role for `HunksFromConflictString` (`roles`): it is
content of one of the three kinds, or one of the three markers.  The content of a
side that is read are the lines whose role is on that side.
-/

namespace Debase
namespace Git

open Toastbox

/-! ## The roles of lines -/

/-- What a line is to the reader. -/
inductive Role where
  | normal
  | start
  | ours
  | separator
  | theirs
  | finish
deriving DecidableEq

/-- Whether a line of this role is content of a side. -/
def Role.on : Role → Side → Bool
  | .normal, _ => true
  | .ours, .ours => true
  | .theirs, .theirs => true
  | _, _ => false

/-- The role of a line in a state of the reader. -/
def role (m : ConflictMarkers) : ParseState → Bytes → Role
  | .normal, l => if startsWith m.start l then .start else .normal
  | .conflictOurs, l => if startsWith m.separator l then .separator else .ours
  | .conflictTheirs, l => if startsWith m.finish l then .finish else .theirs

/-- The state of the reader after a line of this role. -/
def Role.next : Role → ParseState
  | .normal => .normal
  | .start => .conflictOurs
  | .ours => .conflictOurs
  | .separator => .conflictTheirs
  | .theirs => .conflictTheirs
  | .finish => .normal

/-- The state in which a line can have this role. -/
def Role.state : Role → ParseState
  | .normal => .normal
  | .start => .normal
  | .ours => .conflictOurs
  | .separator => .conflictOurs
  | .theirs => .conflictTheirs
  | .finish => .conflictTheirs

/-- The roles of lines from a state of the reader on. -/
def roles (m : ConflictMarkers) : ParseState → List Bytes → List (Role × Bytes)
  | _, [] => []
  | st, l :: ls => (role m st l, l) :: roles m (role m st l).next ls

/-- The content of a side among lines with roles. -/
def contentOf (side : Side) (l : List (Role × Bytes)) : List Bytes :=
  (l.filter fun x => x.1.on side).map Prod.snd

/-- No lines of another kind than the state says are in the hunk that is read. -/
def HunkParser.Clean (p : HunkParser) : Prop :=
  match p.state with
  | .normal => p.hunk.type = .normal ∧ p.hunk.linesOurs = [] ∧ p.hunk.linesTheirs = []
  | .conflictOurs => p.hunk.type = .conflict ∧ p.hunk.normal = [] ∧ p.hunk.linesTheirs = []
  | .conflictTheirs => p.hunk.type = .conflict ∧ p.hunk.normal = []

section Reading

variable {strings : Strings} {m : ConflictMarkers}

@[simp] theorem roles_cons (st : ParseState) (l : Bytes) (ls : List Bytes) :
    roles m st (l :: ls) = (role m st l, l) :: roles m (role m st l).next ls := rfl

@[simp] theorem state_role (st : ParseState) (l : Bytes) : (role m st l).state = st := by
  cases st with
  | normal =>
      show (if startsWith m.start l then Role.start else Role.normal).state = .normal
      split <;> rfl
  | conflictOurs =>
      show (if startsWith m.separator l then Role.separator else Role.ours).state = .conflictOurs
      split <;> rfl
  | conflictTheirs =>
      show (if startsWith m.finish l then Role.finish else Role.theirs).state = .conflictTheirs
      split <;> rfl

/-- Roles are given to all lines, in order. -/
@[simp] theorem map_snd_roles (st : ParseState) (lines : List Bytes) :
    (roles m st lines).map Prod.snd = lines := by
  induction lines generalizing st with
  | nil => rfl
  | cons l ls ih => rw [roles_cons, List.map_cons, ih]

theorem contentOf_cons (side : Side) (r : Role) (l : Bytes) (rest : List (Role × Bytes)) :
    contentOf side ((r, l) :: rest) =
      if r.on side then l :: contentOf side rest else contentOf side rest := by
  unfold contentOf
  rw [List.filter_cons]
  split <;> rfl

theorem push_of_empty {p : HunkParser} (h : p.hunk.empty = true) : p.push = p := by
  unfold HunkParser.push
  rw [if_pos h]

theorem push_of_not_empty {p : HunkParser} (h : p.hunk.empty = false) :
    p.push = { p with hunks := p.hunks ++ [p.hunk], hunk := ⟨p.hunk.type, [], [], []⟩ } := by
  unfold HunkParser.push
  rw [h]
  rfl

/-- An empty hunk has no lines on either side. -/
theorem lines_of_empty {h : Hunk} (hempty : h.empty = true) (side : Side) : h.lines side = [] := by
  unfold Hunk.empty at hempty
  unfold Hunk.lines
  cases htype : h.type with
  | normal =>
      rw [htype] at hempty
      simpa using hempty
  | conflict =>
      rw [htype] at hempty
      have hboth : h.linesOurs = [] ∧ h.linesTheirs = [] := by simpa using hempty
      cases side with
      | ours => exact hboth.1
      | theirs => exact hboth.2

/-- A push moves the content of the hunk that was read to the hunks. -/
theorem lines_push (p : HunkParser) (side : Side) :
    p.push.hunks.flatMap (fun h => h.lines side) =
      p.hunks.flatMap (fun h => h.lines side) ++ p.hunk.lines side := by
  cases hempty : p.hunk.empty with
  | true => rw [push_of_empty hempty, lines_of_empty hempty, List.append_nil]
  | false => rw [push_of_not_empty hempty, List.flatMap_append, List.flatMap_singleton]

/-- The hunk that is left after a push, with another type. -/
theorem push_hunk_retyped {p : HunkParser} (hp : p.Clean) (hstate : p.state ≠ .conflictOurs)
    (type : HunkType) : { p.push.hunk with type := type } = (⟨type, [], [], []⟩ : Hunk) := by
  cases hempty : p.hunk.empty with
  | false => rw [push_of_not_empty hempty]
  | true =>
      rw [push_of_empty hempty]
      obtain ⟨hunks, ⟨t, normal, ours, theirs⟩, state⟩ := p
      unfold HunkParser.Clean at hp
      unfold Hunk.empty at hempty
      cases state with
      | normal =>
          obtain ⟨rfl, rfl, rfl⟩ := hp
          simpa using hempty
      | conflictOurs => exact absurd rfl hstate
      | conflictTheirs =>
          obtain ⟨rfl, rfl⟩ := hp
          simpa using hempty

/-- The hunk that is read after lines of content. -/
def Hunk.add (h : Hunk) (r : Role) (ls : List Bytes) : Hunk :=
  match r with
  | .normal => { h with normal := h.normal ++ ls }
  | .ours => { h with linesOurs := h.linesOurs ++ ls }
  | .theirs => { h with linesTheirs := h.linesTheirs ++ ls }
  | _ => h

/-- What the reader does with a line, by the role of the line. -/
theorem line_eq {p : HunkParser} (hp : p.Clean) (l : Bytes) :
    p.line strings m l =
      match role m p.state l with
      | .start => ⟨p.push.hunks, ⟨.conflict, [], [], []⟩, .conflictOurs⟩
      | .finish => ⟨p.push.hunks, ⟨.normal, [], [], []⟩, .normal⟩
      | r => ⟨p.hunks, p.hunk.add r [l], r.next⟩ := by
  have hretyped := push_hunk_retyped hp
  obtain ⟨hunks, hunk, state⟩ := p
  unfold HunkParser.line role
  simp only [strings.startsWith_eq]
  cases state with
  | normal =>
      dsimp only
      split
      · rw [hretyped (by simp)]
      · rfl
  | conflictOurs =>
      obtain ⟨htype, -⟩ := hp
      dsimp only at htype ⊢
      split
      · rw [← htype]
        rfl
      · rfl
  | conflictTheirs =>
      dsimp only
      split
      · rw [hretyped (by simp)]
      · rfl

/-- The reader stays clean. -/
theorem clean_line {p : HunkParser} (hp : p.Clean) (l : Bytes) : (p.line strings m l).Clean := by
  have hstate := @state_role m p.state l
  rw [line_eq hp]
  unfold HunkParser.Clean at hp
  rw [← hstate] at hp
  cases hrole : role m p.state l with
  | normal =>
      rw [hrole] at hp
      exact hp
  | start => exact ⟨rfl, rfl, rfl⟩
  | ours =>
      rw [hrole] at hp
      exact hp
  | separator =>
      rw [hrole] at hp
      exact ⟨hp.1, hp.2.1⟩
  | theirs =>
      rw [hrole] at hp
      exact hp
  | finish => exact ⟨rfl, rfl, rfl⟩

theorem state_line {p : HunkParser} (hp : p.Clean) (l : Bytes) :
    (p.line strings m l).state = (role m p.state l).next := by
  rw [line_eq hp]
  cases role m p.state l <;> rfl

/-- The content of a side grows by a line whose role is on it. -/
theorem content_line {p : HunkParser} (hp : p.Clean) (l : Bytes) (side : Side) :
    (p.line strings m l).hunks.flatMap (fun h => h.lines side) ++ (p.line strings m l).hunk.lines side =
      p.hunks.flatMap (fun h => h.lines side) ++ p.hunk.lines side ++
        if (role m p.state l).on side then [l] else [] := by
  have hpush := lines_push p side
  have hstate := @state_role m p.state l
  rw [line_eq hp]
  unfold HunkParser.Clean at hp
  rw [← hstate] at hp
  cases hrole : role m p.state l with
  | normal =>
      rw [hrole] at hp
      cases side <;> simp [Hunk.add, Hunk.lines, hp.1, Role.on]
  | start =>
      rw [← hpush]
      cases side <;> rfl
  | ours =>
      rw [hrole] at hp
      cases side <;> simp [Hunk.add, Hunk.lines, hp.1, hp.2.2, Role.on]
  | separator => cases side <;> simp [Hunk.add, Role.on]
  | theirs =>
      rw [hrole] at hp
      cases side <;> simp [Hunk.add, Hunk.lines, hp.1, Role.on]
  | finish =>
      rw [← hpush]
      cases side <;> rfl

theorem content_foldl (lines : List Bytes) {p : HunkParser} (hp : p.Clean) (side : Side) :
    (lines.foldl (HunkParser.line strings m) p).push.hunks.flatMap (fun h => h.lines side) =
      p.hunks.flatMap (fun h => h.lines side) ++ p.hunk.lines side ++
        contentOf side (roles m p.state lines) := by
  induction lines generalizing p with
  | nil =>
      rw [List.foldl_nil, lines_push]
      exact (List.append_nil _).symm
  | cons l ls ih =>
      rw [List.foldl_cons, ih (clean_line hp l), content_line hp, state_line hp, roles_cons,
        contentOf_cons]
      split <;> simp

/-- The content of a side are the lines whose role is on it. -/
theorem content_hunksFromLines (lines : List Bytes) (side : Side) :
    (hunksFromLines strings m lines).flatMap (fun h => h.lines side) =
      contentOf side (roles m .normal lines) := by
  unfold hunksFromLines
  rw [@content_foldl strings m lines .init ⟨rfl, rfl, rfl⟩ side]
  rfl

end Reading

end Git
end Debase
