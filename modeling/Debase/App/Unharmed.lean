import Debase.App.Remembered

/-!
# Actions that throw

An undo, a redo, a snapshot restore or a rename changes the repository and the session in several
steps, and any of them may throw.  As long as the things that can go wrong late do not
(`Undisturbed`), such an action has done nothing when it throws, in every state that a session
can reach through actions that succeed or throw.
-/

namespace Debase

open Git Library

namespace App

variable {κ ω : Type}

section Sessions

variable [DecidableEq κ] (env : Env κ ω)

/-- An action that is offered, whether it succeeds or throws.  A failed assertion ends the
session. -/
def survive (app : App κ ω) (l : Action × Inputs κ) : Option (App κ ω) :=
  if app.offers l.1 then
    match perform env l.2 l.1 app with
    | (.ok _, app') => some app'
    | (.error e, app') => if e = .abort then none else some app'
  else none

variable {env} {app app' : App κ ω} {l : Action × Inputs κ}

theorem survive_cases (h : survive env app l = some app') : app.offers l.1 = true ∧
    (perform env l.2 l.1 app = (.ok (), app') ∨
      ∃ e, perform env l.2 l.1 app = (.error e, app') ∧ e ≠ .abort) := by
  unfold survive at h
  split at h
  · next hoffers =>
      refine ⟨hoffers, ?_⟩
      rcases hp : perform env l.2 l.1 app with ⟨e | u, app₁⟩
      · rw [hp] at h
        dsimp only at h
        split at h
        · cases h
        · next habort =>
            cases h
            exact Or.inr ⟨e, rfl, habort⟩
      · rw [hp] at h
        cases h
        exact Or.inl rfl
  · cases h

/-- What an action needs: the histories follow it if it succeeds, and it has done nothing yet if
it throws. -/
def Orderly (env : Env κ ω) (app : App κ ω) (l : Action × Inputs κ) : Prop :=
  Followable env app l ∧ Undisturbed env app l

instance (env : Env κ ω) (app : App κ ω) (l : Action × Inputs κ) : Decidable (Orderly env app l) :=
  inferInstanceAs (Decidable (Followable env app l ∧ Undisturbed env app l))

theorem survive_linked (h : Linked env app) (horderly : Orderly env app l)
    (hstep : survive env app l = some app') : Linked env app' := by
  obtain ⟨hoffers, hok | ⟨e, herror, habort⟩⟩ := survive_cases hstep
  · exact ((perform_ends h hoffers horderly.1).of_ok hok).linked
  · exact ((perform_ends h hoffers horderly.1).of_error herror habort horderly.2).1

/-- The refs, the loaded histories and the revs are as before. -/
structure Unharmed (app app' : App κ ω) : Prop where
  refs : app'.repo.refs = app.repo.refs
  histories : app'.repoState = app.repoState
  revs : app'.revs = app.revs

omit [DecidableEq κ] in
theorem Unharmed.of_rests (h : Rests app app') : Unharmed app app' :=
  ⟨h.refs, h.repoState, h.revs⟩

/-- Every loaded history ends in the name and the head that its ref has. -/
def Current (env : Env κ ω) (app : App κ ω) : Prop :=
  ∀ k lref, app.repoState k = some lref → HistoryLinked env app.repo k lref

/-- What holds of a state: its histories are current, and where an undo, a redo, a snapshot
restore or a rename throws, everything is as before and the histories are still current. -/
structure FailsCleanly (env : Env κ ω) (app : App κ ω) : Prop where
  current : Current env app
  unharmed : ∀ l app' e, l.1.column.isSome → app.offers l.1 = true → Orderly env app l →
    perform env l.2 l.1 app = (.error e, app') → e ≠ .abort →
      Unharmed app app' ∧ Current env app'

theorem Linked.failsCleanly (h : Linked env app) : FailsCleanly env app where
  current := h.loaded
  unharmed l app' e hcolumn hoffers horderly herror habort := by
    obtain ⟨hlinked, hrests⟩ :=
      (perform_ends h hoffers horderly.1).of_error herror habort horderly.2
    exact ⟨.of_rests (hrests hcolumn), hlinked.loaded⟩

end Sessions

/-! ## A rename that is refused, and a restore of a name that is taken -/

namespace CheckedOut

open HalfMove

/-- Copy the branch, rename it to the name of its copy, which is refused, and rename it. -/
def refusedRename : List (Action × Inputs (Option Commit)) :=
  [(.resize ⟨100, 10⟩, noFault), (.duplicate 0, noFault), (.rename 0 (ascii "main2"), noFault),
    (.rename 0 (ascii "next"), noFault)]

/-- Delete the head of the branch, rename the branch, and give its old name to a copy. -/
def nameTaken : List (Action × Inputs (Option Commit)) :=
  [(.resize ⟨100, 10⟩, noFault), (.select 0 {top} false, noFault), (.deleteCommits, noFault),
    (.rename 0 (ascii "next"), noFault), (.duplicate 0, noFault),
    (.rename 1 (ascii "main"), noFault)]

/-- The name of a branch, the head it has and the head that its history ends in. -/
def headAndHistory (app : App (Option Commit) Unit) (k : Bytes) :
    Option Commit × Option (Option Commit) :=
  ((app.repo.refs k).map Target.commit,
    (app.repoState k).map fun lref => lref.history.current.refState.head)

end CheckedOut

end App
end Debase
