import Debase.App.Reload
import Debase.Library.Timeline

/-!
# What histories record

The timeline of a ref is what an observer of the repository writes down who sees
the names and heads of the refs, and of the user's actions only which refs are
undone and redone (`advance`).  `recorded` is what the histories of a session say.
-/

namespace Debase

open Git Library

namespace State
namespace History

variable {α β : Type}

/-- The timeline a history stands for. -/
def timeline (f : α → β) (h : History α) : Timeline β where
  states := (h.prevs.reverse ++ h.current :: h.nexts).map f
  pos := h.prevs.length
  pos_lt := by
    rw [List.length_map, List.length_append, List.length_reverse, List.length_cons]
    omega

variable {f : α → β} {h h' : History α}

theorem timeline_single (x : α) : (single x).timeline f = .single (f x) := rfl

@[simp] theorem present_timeline : (h.timeline f).present = f h.current := by
  apply Timeline.present_eq_iff.mpr
  show ((h.prevs.reverse ++ h.current :: h.nexts).map f)[h.prevs.length]? = some (f h.current)
  rw [List.getElem?_map, List.getElem?_append_right (by rw [List.length_reverse])]
  simp

theorem timeline_push (x : α) : (h.push x).timeline f = (h.timeline f).change (f x) := by
  ext1
  · show ((h.current :: h.prevs).reverse ++ x :: []).map f =
      ((h.prevs.reverse ++ h.current :: h.nexts).map f).take (h.prevs.length + 1) ++ [f x]
    have htake : (h.prevs.reverse ++ h.current :: h.nexts).take (h.prevs.length + 1) =
        h.prevs.reverse ++ [h.current] := by
      rw [← @List.length_reverse _ h.prevs, List.take_length_add_append]
      rfl
    rw [← List.map_take, htake]
    simp
  · rfl

theorem timeline_prev (hprev : h.prev = some h') : h'.timeline f = (h.timeline f).undo := by
  rcases h with ⟨current, _ | ⟨x, prevs⟩, nexts⟩
  · cases hprev
  · cases hprev
    ext1
    · show (prevs.reverse ++ x :: current :: nexts).map f =
        ((x :: prevs).reverse ++ current :: nexts).map f
      rw [List.reverse_cons, List.append_assoc]
      rfl
    · rfl

theorem timeline_next (hnext : h.next = some h') : h'.timeline f = (h.timeline f).redo := by
  rcases h with ⟨current, prevs, _ | ⟨x, nexts⟩⟩
  · cases hnext
  · cases hnext
    ext1
    · show ((current :: prevs).reverse ++ x :: nexts).map f =
        (prevs.reverse ++ current :: x :: nexts).map f
      rw [List.reverse_cons, List.append_assoc]
      rfl
    · show prevs.length + 1 =
        min (prevs.length + 1) (((prevs.reverse ++ current :: x :: nexts).map f).length - 1)
      rw [List.length_map, List.length_append, List.length_reverse]
      simp

end History
end State

namespace App

/-- What a ref shows: its short name and its head. -/
abbrev Shown := Bytes × Option Commit

/-- What a stored state says a ref shows. -/
def shown {κ : Type} (ids : State.CommitIds κ) (x : State.HistoryRefState κ) : Shown :=
  (x.refState.name, ids.commit x.refState.head)

variable {κ ω : Type}

/-- What the session has recorded for a ref of the repository: its history, or if
that is not loaded, that nothing has happened yet. -/
def recorded (env : Env κ ω) (repo : Repository) (repoState : State.LoadedRefs κ) (m : Bytes) :
    Option (Timeline Shown) :=
  (repo.lookup m).map fun ref =>
    match repoState m with
    | some lref => lref.history.timeline (shown env.ids)
    | none => .single (Ref.shorthand m, some ref.commit)

/-- The column of an action that restores a state or a name. -/
def Action.column : Action → Option Nat
  | .undo i => some i
  | .redo i => some i
  | .restore i _ => some i
  | .rename i _ => some i
  | _ => none

/-- The ref such an action is about. -/
def columnRef (app : App κ ω) (action : Action) : Option Bytes :=
  (action.column.bind app.colRef).map Ref.fullName

/-- The name before the action of a ref that exists afterwards: a ref that comes up
is the one that was renamed, if the action may rename one. -/
def origin (app : App κ ω) (action : Action) (m : Bytes) : Option Bytes :=
  if (app.repo.lookup m).isSome then some m else app.columnRef action

/-- What an action does to the timeline of the ref it is about. -/
def Action.turn : Action → Timeline Shown → Shown → Timeline Shown
  | .undo _, t, _ => t.undo
  | .redo _, t, _ => t.redo
  | _, t, now => t.observe now

/-- What an observer of the repository notes down after an action. -/
def advance (before after : App κ ω) (action : Action)
    (book : Bytes → Option (Timeline Shown)) (m : Bytes) : Option (Timeline Shown) :=
  (after.repo.lookup m).map fun ref =>
    let now : Shown := (Ref.shorthand m, some ref.commit)
    match (before.origin action m).bind book with
    | none => .single now
    | some t =>
        if before.origin action m = before.columnRef action then action.turn t now
        else t.observe now

section Lemmas

variable {env : Env κ ω} {app app' : App κ ω} {action : Action}

/-- The histories of a ref before and after are the same, where a history that is
loaded late begins with the ref's present state. -/
def HistoryKept (env : Env κ ω) (repo : Repository) (old new : State.LoadedRefs κ) (m : Bytes) :
    Prop :=
  match old m, new m with
  | some lref, some lref' => lref'.history = lref.history
  | none, some lref' => ∃ ref, repo.lookup m = some ref ∧
      lref'.history = .single (.ofRef env.ids ref)
  | none, none => True
  | some _, none => False

theorem HistoryKept.congr {repo repo' : Repository} {old old' new : State.LoadedRefs κ} {m : Bytes}
    (h : HistoryKept env repo old new m) (hlookup : repo'.lookup m = repo.lookup m)
    (hold : old' m = old m) : HistoryKept env repo' old' new m := by
  unfold HistoryKept at h ⊢
  rw [hold, hlookup]
  exact h

theorem recorded_of_kept {repo repo' : Repository} {old new : State.LoadedRefs κ} {m : Bytes}
    (hlookup : repo'.lookup m = repo.lookup m) (h : HistoryKept env repo old new m) :
    recorded env repo' new m = recorded env repo old m := by
  unfold recorded
  rw [hlookup]
  cases href : repo.lookup m with
  | none => rfl
  | some ref =>
      unfold HistoryKept at h
      cases hold : old m with
      | some lref =>
          cases hnew : new m with
          | none =>
              rw [hold, hnew] at h
              exact h.elim
          | some lref' =>
              rw [hold, hnew] at h
              simp [show lref'.history = lref.history from h]
      | none =>
          cases hnew : new m with
          | none => rfl
          | some lref' =>
              rw [hold, hnew] at h
              obtain ⟨ref', href', hhistory⟩ := h
              rw [href] at href'
              cases href'
              have hname : ref.name = Ref.shorthand m := by
                rw [Ref.name, fullName_of_lookup href]
              simp [hhistory, State.History.timeline_single, shown, State.RefState.ofRef, hname]

theorem Loads.kept' {repo : Repository} {old new : State.LoadedRefs κ}
    (h : Loads env repo old new) (m : Bytes) : HistoryKept env repo old new m := by
  unfold HistoryKept
  cases hold : old m with
  | some lref => simp [h.kept m lref hold]
  | none =>
      cases hnew : new m with
      | none => trivial
      | some lref =>
          rcases h.fresh m lref hnew with hsame | ⟨-, ref, href, hhistory⟩
          · rw [hold] at hsame
            cases hsame
          · exact ⟨ref, href, hhistory⟩

/-- The present state of a timeline is what the repository shows. -/
theorem present_recorded {repo : Repository} {repoState : State.LoadedRefs κ}
    (hlinked : ∀ k lref, repoState k = some lref → HistoryLinked env repo k lref) {m : Bytes}
    {ref : Ref} (href : repo.lookup m = some ref) :
    ∃ t, recorded env repo repoState m = some t ∧ t.present = (Ref.shorthand m, some ref.commit) := by
  unfold recorded
  rw [href, Option.map_some]
  refine ⟨_, rfl, ?_⟩
  cases hm : repoState m with
  | none => rfl
  | some lref =>
      obtain ⟨hname, ref', href', hcommit⟩ := hlinked m lref hm
      rw [href] at href'
      cases href'
      simp [shown, hname, hcommit]

/-- A ref that an action is not about, and that it did not change. -/
theorem advance_of_kept (h : Linked env app) {m : Bytes} {ref : Ref}
    (hlookup : app'.repo.lookup m = app.repo.lookup m) (href : app.repo.lookup m = some ref)
    (hkept : HistoryKept env app.repo app.repoState app'.repoState m)
    (hother : app.columnRef action ≠ some m) :
    recorded env app'.repo app'.repoState m =
      advance app app' action (recorded env app.repo app.repoState) m := by
  obtain ⟨t, ht, hpresent⟩ := present_recorded h.loaded href
  have horigin : app.origin action m = some m := by
    unfold origin
    rw [href]
    rfl
  rw [recorded_of_kept hlookup hkept]
  unfold advance
  rw [hlookup, href, horigin, Option.bind_some, ht, Option.map_some]
  show some t = some (if some m = app.columnRef action then _ else t.observe _)
  rw [if_neg (Ne.symm hother), ← hpresent, t.observe_present]

/-- A ref that came up without a history. -/
theorem advance_of_new {m : Bytes} {ref : Ref} (href : app'.repo.lookup m = some ref)
    (hfree : app.repo.lookup m = none) (hcolumn : app.columnRef action = none)
    (hkept : HistoryKept env app'.repo (fun _ => none) app'.repoState m) :
    recorded env app'.repo app'.repoState m =
      advance app app' action (recorded env app.repo app.repoState) m := by
  have horigin : app.origin action m = none := by
    unfold origin
    rw [hfree]
    exact hcolumn
  rw [recorded_of_kept rfl hkept]
  unfold advance recorded
  rw [href, horigin]
  rfl

end Lemmas

end App
end Debase
