import Mathlib.Data.List.Sort
import Debase.Git.Object

/-!
# Histories and snapshots

`History.h` and the value types of `state/State.h`.  A commit is stored as the
text of its id, so a state that was read from disk may name a commit that the
repository does not have.  Texts of ids are values of an arbitrary type `κ`.
-/

namespace Debase
namespace State

open Git

/-- The texts of commit ids (`State::Commit`). -/
structure CommitIds (κ : Type) where
  /-- `Git::Commit::idStr`. -/
  idStr (commit : Commit) : κ
  /-- The commit with the id that `IdFromString` reads, if there is one. -/
  commit (id : κ) : Option Commit
  /-- The empty text. -/
  empty : κ
  /-- `operator <` of the texts. -/
  less (id id' : κ) : Bool
  commit_idStr (c : Commit) : commit (idStr c) = some c
  commit_empty : commit empty = none

attribute [simp] CommitIds.commit_idStr CommitIds.commit_empty

/-- `T_History`. -/
structure History (α : Type) where
  current : α
  /-- `_prev`, the latest state first. -/
  prevs : List α
  /-- `_next`, the earliest state first. -/
  nexts : List α
deriving DecidableEq

namespace History

variable {α : Type}

/-- `T_History(const T& t)`. -/
def single (x : α) : History α := ⟨x, [], []⟩

/-- `push`. -/
def push (h : History α) (x : α) : History α := ⟨x, h.current :: h.prevs, []⟩

/-- `prev`, which asserts that there is a previous state. -/
def prev (h : History α) : Option (History α) :=
  match h.prevs with
  | [] => none
  | x :: prevs => some ⟨x, prevs, h.current :: h.nexts⟩

/-- `next`, which asserts that there is a next state. -/
def next (h : History α) : Option (History α) :=
  match h.nexts with
  | [] => none
  | x :: nexts => some ⟨x, h.current :: h.prevs, nexts⟩

/-- `prevPeek`. -/
def prevPeek (h : History α) : Option α := h.prevs.head?

/-- `nextPeek`. -/
def nextPeek (h : History α) : Option α := h.nexts.head?

/-- `begin`. -/
def atBegin (h : History α) : Bool := h.prevs.isEmpty

/-- `end`. -/
def atEnd (h : History α) : Bool := h.nexts.isEmpty

@[simp] theorem current_single (x : α) : (single x).current = x := rfl

@[simp] theorem current_push (h : History α) (x : α) : (h.push x).current = x := rfl

/-- A step back and a step forth cancel. -/
theorem next_of_prev {h h' : History α} (hprev : h.prev = some h') : h'.next = some h := by
  rcases h with ⟨current, _ | ⟨x, prevs⟩, nexts⟩
  · cases hprev
  · cases hprev
    rfl

theorem prev_of_next {h h' : History α} (hnext : h.next = some h') : h'.prev = some h := by
  rcases h with ⟨current, prevs, _ | ⟨x, nexts⟩⟩
  · cases hnext
  · cases hnext
    rfl

theorem isSome_prevPeek (h : History α) : h.prevPeek.isSome = !h.atBegin := by
  unfold prevPeek atBegin
  cases h.prevs <;> rfl

theorem isSome_nextPeek (h : History α) : h.nextPeek.isSome = !h.atEnd := by
  unfold nextPeek atEnd
  cases h.nexts <;> rfl

theorem prev_of_prevPeek {h : History α} {x : α} (hpeek : h.prevPeek = some x) :
    ∃ h', h.prev = some h' ∧ h'.current = x := by
  rcases h with ⟨current, _ | ⟨y, prevs⟩, nexts⟩
  · cases hpeek
  · cases hpeek
    exact ⟨_, rfl, rfl⟩

theorem next_of_nextPeek {h : History α} {x : α} (hpeek : h.nextPeek = some x) :
    ∃ h', h.next = some h' ∧ h'.current = x := by
  rcases h with ⟨current, prevs, _ | ⟨y, nexts⟩⟩
  · cases hpeek
  · cases hpeek
    exact ⟨_, rfl, rfl⟩

end History

/-- `State::RefState`: the short name of a ref and its head. -/
structure RefState (κ : Type) where
  name : Bytes
  head : κ
deriving DecidableEq

/-- `HistoryRefState`. -/
structure HistoryRefState (κ : Type) where
  refState : RefState κ
  selection : Finset κ
  selectionPrev : Finset κ
deriving DecidableEq

/-- `Snapshot`. -/
structure Snapshot (κ : Type) where
  creationTime : Int
  refState : RefState κ
deriving DecidableEq

section Types

variable {κ : Type} (ids : CommitIds κ)

/-- `RefState(const Git::Ref& ref)`. -/
def RefState.ofRef (ref : Ref) : RefState κ := ⟨ref.name, ids.idStr ref.commit⟩

/-- `HistoryRefState(const Git::Ref& ref)`. -/
def HistoryRefState.ofRef (ref : Ref) : HistoryRefState κ := ⟨.ofRef ids ref, ∅, ∅⟩

/-- `HistoryRefState()`. -/
def HistoryRefState.blank : HistoryRefState κ := ⟨⟨[], ids.empty⟩, ∅, ∅⟩

@[simp] theorem refState_ofRef (ref : Ref) :
    (HistoryRefState.ofRef ids ref).refState = .ofRef ids ref := rfl

/-- `RefState::operator <`. -/
def RefState.less (x y : RefState κ) : Bool :=
  if x.name ≠ y.name then x.name < y.name else ids.less x.head y.head

/-- `Snapshot::operator <`. -/
def Snapshot.less (x y : Snapshot κ) : Bool :=
  if x.creationTime ≠ y.creationTime then x.creationTime < y.creationTime
  else x.refState.less ids y.refState

variable [DecidableEq κ]

/-- The body of the first loop of `_CleanSnapshots`.  The map is the list of its
values. -/
def keepEarliest (earliestSnapshot : List (Snapshot κ)) (snap : Snapshot κ) : List (Snapshot κ) :=
  match earliestSnapshot.find? fun s => s.refState = snap.refState with
  | none => earliestSnapshot ++ [snap]
  | some found =>
      if snap.creationTime < found.creationTime then
        earliestSnapshot.map fun s => if s.refState = snap.refState then snap else s
      else earliestSnapshot

/-- `_CleanSnapshots`. -/
def cleanSnapshots (snapshots : List (Snapshot κ)) : List (Snapshot κ) :=
  (snapshots.foldl keepEarliest []).insertionSort fun x y => y.less ids x = false

end Types

end State
end Debase
