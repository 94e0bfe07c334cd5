import Debase.App.Exit
import Debase.App.Recording

/-!
# What a session remembers

An observer of the repository notes down a timeline for each ref: the names and heads that the
ref has had, and which of them was undone and redone.  In every session the histories are these
timelines, so undo and redo lead along the states that the ref has had, and a new change drops
what was undone.
-/

namespace Debase

open Git Library

namespace App

variable {κ ω : Type}

/-! ## What is remembered -/

section Remembered

variable [DecidableEq κ] {env : Env κ ω} {app app' : App κ ω} {k k' : Bytes}

/-- What the ref `k` of the repository shows. -/
def showing (app : App κ ω) (k : Bytes) : Option Shown :=
  (app.repo.lookup k).map fun ref => (Ref.shorthand k, some ref.commit)

/-- The ref `k` is called `k'` after the action. -/
def Becomes (app app' : App κ ω) (action : Action) (k k' : Bytes) : Prop :=
  (app'.repo.lookup k').isSome ∧ app.origin action k' = some k

/-- An undo, or a redo. -/
def Action.turning (undo : Bool) (i : Nat) : Action := if undo then .undo i else .redo i

/-- The action undoes or redoes the ref `k`. -/
def Turning (app : App κ ω) (action : Action) (k : Bytes) : Prop :=
  app.columnRef action = some k ∧ ∃ undo i, action = .turning undo i

/-- `n` undos (or redos) of a ref, each through some column of it, and meanwhile other actions
that do not change the ref.  The ref is called `k` before and `k'` afterwards. -/
inductive Turns (env : Env κ ω) (undo : Bool) : Nat → App κ ω → Bytes → App κ ω → Bytes → Prop where
  | zero (app : App κ ω) (k : Bytes) : Turns env undo 0 app k app k
  | succ {n : Nat} {app app₁ app' : App κ ω} {k k₁ k' : Bytes} {i : Nat} {inputs : Inputs κ}
      (hcol : app.columnRef (.turning undo i) = some k)
      (hfollow : Followable env app (.turning undo i, inputs))
      (hstep : succeed env app (.turning undo i, inputs) = some app₁)
      (hname : Becomes app app₁ (.turning undo i) k k₁) (hrest : Turns env undo n app₁ k₁ app' k') :
      Turns env undo (n + 1) app k app' k'
  | other {n : Nat} {app app₁ app' : App κ ω} {k k₁ k' : Bytes} {l : Action × Inputs κ}
      (hother : ¬Turning app l.1 k) (hfollow : Followable env app l)
      (hstep : succeed env app l = some app₁) (hname : Becomes app app₁ l.1 k k₁)
      (hshowing : app₁.showing k₁ = app.showing k) (hrest : Turns env undo n app₁ k₁ app' k') :
      Turns env undo n app k app' k'

omit [DecidableEq κ] in
/-- The present state of what is recorded is what the ref shows. -/
theorem showing_of_recorded (h : Linked env app) {t : Timeline Shown}
    (ht : recorded env app.repo app.repoState k = some t) : app.showing k = some t.present := by
  cases href : app.repo.lookup k with
  | none => simp [recorded, href] at ht
  | some ref =>
      obtain ⟨t', ht', hpresent⟩ := present_recorded h.loaded href
      obtain rfl : t' = t := Option.some.inj (ht'.symm.trans ht)
      rw [hpresent, showing, href, Option.map_some]

omit [DecidableEq κ] in
theorem turn_turning (undo : Bool) (i : Nat) (t : Timeline Shown) (now : Shown) :
    (Action.turning undo i).turn t now = t.turn undo := by
  cases undo with
  | true => rfl
  | false => rfl

omit [DecidableEq κ] in
/-- What is recorded for a ref after an action: the next state along the timeline if the action
undoes or redoes the ref, and else what the ref shows then. -/
theorem Advanced.recorded_of_becomes {action : Action} (h : Advanced env app app' action)
    {t : Timeline Shown} (ht : App.recorded env app.repo app.repoState k = some t)
    (hname : Becomes app app' action k k') :
    ∃ now, app'.showing k' = some now ∧
      (∀ undo i, action = .turning undo i → app.columnRef action = some k →
        App.recorded env app'.repo app'.repoState k' = some (t.turn undo)) ∧
      (¬Turning app action k → App.recorded env app'.repo app'.repoState k' =
        some (t.observe now)) := by
  obtain ⟨hexists, horigin⟩ := hname
  obtain ⟨ref, href⟩ := Option.isSome_iff_exists.mp hexists
  have hrecorded : App.recorded env app'.repo app'.repoState k' =
      some (if app.columnRef action = some k then
        action.turn t (Ref.shorthand k', some ref.commit)
        else t.observe (Ref.shorthand k', some ref.commit)) := by
    rw [h.recorded]
    unfold advance
    rw [href, Option.map_some, horigin, Option.bind_some, ht]
    simp only [eq_comm]
  refine ⟨(Ref.shorthand k', some ref.commit), by rw [showing, href, Option.map_some], ?_, ?_⟩
  · rintro undo i rfl hcol
    rw [hrecorded, if_pos hcol, turn_turning]
  · intro hother
    rw [hrecorded]
    split
    · next hcol =>
        -- the other actions on a column are observed, too
        cases action with
        | undo i => exact absurd ⟨hcol, true, i, rfl⟩ hother
        | redo i => exact absurd ⟨hcol, false, i, rfl⟩ hother
        | _ => rfl
    · rfl

omit [DecidableEq κ] in
/-- Whether a column can undo is whether there is a state before the present one, and the same
for redo and the states after it. -/
theorem canUndoRedo_iff {i : Nat} {undo : Bool} {t : Timeline Shown} (h : Linked env app)
    (hcol : app.columnRef (.turning undo i) = some k)
    (ht : recorded env app.repo app.repoState k = some t) :
    app.offers (.turning undo i) = true ↔ 0 < t.turnsLeft undo := by
  obtain ⟨ref, href, rfl⟩ : ∃ ref, app.colRef i = some ref ∧ ref.fullName = k := by
    cases undo with
    | true => exact Option.map_eq_some_iff.mp hcol
    | false => exact Option.map_eq_some_iff.mp hcol
  obtain ⟨-, lref, -, -, -, hcurrent, hlref⟩ := colRef_eq_some h href
  rw [recorded, show app.repo.lookup ref.fullName = some ref from hcurrent, Option.map_some,
    hlref] at ht
  cases ht
  cases undo with
  | true =>
      show app.canUndoRedo i true = true ↔ 0 < lref.history.prevs.length
      simp [canUndoRedo, href, hlref, State.History.prevPeek, List.length_pos_iff]
  | false =>
      have hleft : (lref.history.timeline (shown env.ids)).turnsLeft false =
          lref.history.nexts.length := by
        show ((lref.history.prevs.reverse ++ lref.history.current :: lref.history.nexts).map
          _).length - 1 - lref.history.prevs.length = _
        rw [List.length_map, List.length_append, List.length_reverse, List.length_cons]
        omega
      rw [hleft]
      show app.canUndoRedo i false = true ↔ _
      simp [canUndoRedo, href, hlref, State.History.nextPeek, List.length_pos_iff]

/-- A run of undos, or of redos, moves along what is recorded. -/
theorem Turns.recorded {undo : Bool} {n : Nat} (hturns : Turns env undo n app k app' k')
    (h : Linked env app) {t : Timeline Shown}
    (ht : App.recorded env app.repo app.repoState k = some t) :
    Linked env app' ∧
      App.recorded env app'.repo app'.repoState k' = some ((Timeline.turn undo)^[n] t) ∧
      n ≤ t.turnsLeft undo := by
  induction hturns generalizing t with
  | zero => exact ⟨h, ht, Nat.zero_le _⟩
  | succ hcol hfollow hstep hname hrest ih =>
      have hleft := (canUndoRedo_iff h hcol ht).mp (succeed_eq_some.mp hstep).1
      have hadvanced := succeed_advances h hfollow hstep
      obtain ⟨-, -, hrecorded, -⟩ := hadvanced.recorded_of_becomes ht hname
      obtain ⟨hlinked, hrecorded', hn⟩ := ih hadvanced.linked (hrecorded _ _ rfl hcol)
      refine ⟨hlinked, hrecorded', ?_⟩
      have := Timeline.turnsLeft_turn hleft
      omega
  | other hother hfollow hstep hname hshowing hrest ih =>
      have hadvanced := succeed_advances h hfollow hstep
      obtain ⟨now, hnow, -, hrecorded⟩ := hadvanced.recorded_of_becomes ht hname
      -- the ref shows what it showed before
      have hpresent : now = t.present := by
        rw [hnow, showing_of_recorded h ht] at hshowing
        exact Option.some.inj hshowing
      refine ih hadvanced.linked ?_
      rw [hrecorded hother, hpresent, t.observe_present]

/-- What the session remembers of the refs: `book` is what an observer of the repository noted
down. -/
structure Remembers (env : Env κ ω) (app : App κ ω) (book : Bytes → Option (Timeline Shown)) :
    Prop where
  /-- Every loaded history ends in the name and the head that its ref has. -/
  current : ∀ k lref, app.repoState k = some lref → HistoryLinked env app.repo k lref
  recorded : App.recorded env app.repo app.repoState = book
  undone : ∀ k t n app₁ k₁, book k = some t → Turns env true n app k app₁ k₁ →
    n ≤ t.pos ∧ app₁.showing k₁ = t.states[t.pos - n]?
  redone : ∀ k t n m app₁ k₁ app₂ k₂, book k = some t → Turns env true n app k app₁ k₁ →
    Turns env false m app₁ k₁ app₂ k₂ → m ≤ n → app₂.showing k₂ = t.states[t.pos - (n - m)]?
  /-- A new change drops what was undone, and only that. -/
  changed : ∀ k t n app₁ k₁ l app₂ k₂ now, book k = some t → Turns env true n app k app₁ k₁ →
    Followable env app₁ l → succeed env app₁ l = some app₂ → ¬Turning app₁ l.1 k₁ →
    Becomes app₁ app₂ l.1 k₁ k₂ → app₂.showing k₂ = some now → app₁.showing k₁ ≠ some now →
    ∃ t', App.recorded env app₂.repo app₂.repoState k₂ = some t' ∧
      t'.states = t.states.take (t.pos + 1 - n) ++ [now] ∧ t'.pos = t.pos + 1 - n

theorem Linked.remembers (h : Linked env app) :
    Remembers env app (App.recorded env app.repo app.repoState) where
  current := h.loaded
  recorded := rfl
  undone k t n app₁ k₁ ht hundone := by
    obtain ⟨hlinked, hrecorded, hn⟩ := hundone.recorded h ht
    have hpresent := t.present_redo_undo hn (Nat.zero_le n)
    refine ⟨hn, ?_⟩
    rw [showing_of_recorded hlinked hrecorded]
    exact hpresent.symm
  redone k t n m app₁ k₁ app₂ k₂ ht hundone hredone hm := by
    obtain ⟨hlinked, hrecorded, hn⟩ := hundone.recorded h ht
    obtain ⟨hlinked', hrecorded', -⟩ := hredone.recorded hlinked hrecorded
    rw [showing_of_recorded hlinked' hrecorded']
    exact (t.present_redo_undo hn hm).symm
  changed k t n app₁ k₁ l app₂ k₂ now ht hundone hfollow hstep hother hname hnow hchange := by
    obtain ⟨hlinked, hrecorded, hn⟩ := hundone.recorded h ht
    have hadvanced := succeed_advances hlinked hfollow hstep
    obtain ⟨now', hnow', -, hrecorded'⟩ := hadvanced.recorded_of_becomes hrecorded hname
    obtain rfl : now' = now := Option.some.inj (hnow'.symm.trans hnow)
    refine ⟨(Timeline.undo^[n] t).change now', ?_, t.change_undo hn now', ?_⟩
    · rw [hrecorded' hother]
      refine congrArg some (if_neg fun hpresent => hchange ?_)
      rw [showing_of_recorded hlinked hrecorded]
      exact congrArg some hpresent
    · show (Timeline.undo^[n] t).pos + 1 = t.pos + 1 - n
      rw [Timeline.pos_iterate_undo]
      have hn : n ≤ t.pos := hn
      omega

end Remembered

/-! ## Every session -/

section Sessions

variable [DecidableEq κ] {env : Env κ ω}

/-- Every stored history ends in the short name of its ref. -/
def StoredNamed (refStates : State.RefStates κ) : Prop :=
  ∀ k stored, refStates k = some stored →
    stored.history.current.refState.name = Ref.shorthand k

/-- What a session writes is named as well. -/
theorem storedNamed_write {app : App κ ω} {refStates : State.RefStates κ} (h : Linked env app)
    (hstored : StoredNamed refStates) : StoredNamed (State.write app.repoState refStates) := by
  intro k stored hk
  unfold State.write at hk
  cases hlref : app.repoState k with
  | none =>
      rw [hlref] at hk
      exact hstored k stored hk
  | some lref =>
      rw [hlref] at hk
      dsimp only at hk
      split at hk
      · cases hk
        exact (h.loaded k lref hlref).1
      · exact hstored k stored hk

/-- What a session is started with: refs that were looked up, and histories as a session stores
them.  What is found for a stored id is the commit that it is the id of. -/
structure Resumed (env : Env κ ω) (repo : Repository) (revs : List Rev)
    (reflogRev : Option GitRev) (refStates : State.RefStates κ) (lookup : κ → Option Commit) :
    Prop where
  lookedUp : LookedUp env repo revs reflogRev
  current : ∀ rev ∈ revs, RevCurrent repo rev
  stored : StoredNamed refStates
  found : ∀ id commit, lookup id = some commit → env.ids.commit id = some commit

theorem start_linked {inputs : Inputs κ} {repo : Repository} {revs : List Rev}
    {refStates : State.RefStates κ} {lookup : κ → Option Commit} {reflogRev : Option GitRev}
    {dirty : Bool} {size : Ui.Size} {outside : ω} {app : App κ ω}
    (hresumed : Resumed env repo revs reflogRev refStates lookup)
    (hstart : start env inputs repo revs refStates lookup reflogRev dirty size outside = some app) :
    Linked env app := by
  have hsettled := start_settled hresumed.lookedUp hstart
  unfold start at hstart
  obtain ⟨head, -, rfl⟩ := Option.map_eq_some_iff.mp hstart
  exact
    { hsettled.toAnchored.ready with
      loaded := by
        intro k lref hk
        obtain ⟨ref, href, rfl, rfl⟩ := State.loadRefs_some hk
        obtain ⟨rev, hrev, hrevRef⟩ := List.mem_filterMap.mp href
        refine ⟨?_, ref, (hresumed.current rev hrev ref hrevRef).1,
          State.head_loadedRef hresumed.found ref _⟩
        exact State.name_loadedRef fun stored => hresumed.stored ref.fullName stored
      revExists := hsettled.revs
      headExists := by
        rintro _ ref ⟨⟩ href
        exact hsettled.headExists ref.fullName (by rw [headRef, Option.bind_some, href]; rfl)
      selectionCurrent := fun _ hno => by cases hno
      revCurrent := by
        intro rev hrev
        obtain ⟨rev₀, hrev₀, rfl⟩ := List.mem_map.mp hrev
        have hsame : (sessionRev dirty head rev₀).toGitRev = rev₀.toGitRev := by
          unfold sessionRev
          split
          · rfl
          · rfl
        unfold RevCurrent
        rw [hsame]
        exact hresumed.current rev₀ hrev₀
      colCurrent := fun _ hno => by cases hno
      colLoaded := fun _ hno => by cases hno }

/-- One action, and what an observer of the repository notes down. -/
def note (env : Env κ ω) (s : App κ ω × (Bytes → Option (Timeline Shown)))
    (l : Action × Inputs κ) : Option (App κ ω × (Bytes → Option (Timeline Shown))) :=
  (succeed env s.1 l).map fun app' => (app', advance s.1 app' l.1 s.2)

/-- In every run of successful actions that the histories can follow, the histories are what an
observer of the repository notes down. -/
theorem run_remembers {inputs : Inputs κ} {repo : Repository} {revs : List Rev}
    {refStates : State.RefStates κ} {lookup : κ → Option Commit} {reflogRev : Option GitRev}
    {dirty : Bool} {size : Ui.Size} {outside : ω} {app : App κ ω}
    {s : App κ ω × (Bytes → Option (Timeline Shown))} {ls : List (Action × Inputs κ)}
    (hresumed : Resumed env repo revs reflogRev refStates lookup)
    (hstart : start env inputs repo revs refStates lookup reflogRev dirty size outside = some app)
    (hrun : run (note env) (app, recorded env app.repo app.repoState) ls = some s)
    (hmeet : StepsMeet (note env) (fun s l => Followable env s.1 l)
      (app, recorded env app.repo app.repoState) ls) : Remembers env s.1 s.2 := by
  let Inv (s : App κ ω × (Bytes → Option (Timeline Shown))) : Prop :=
    Linked env s.1 ∧ recorded env s.1.repo s.1.repoState = s.2
  have hinv : Inv s := by
    refine Run.invariant ?_ hrun hmeet ⟨start_linked hresumed hstart, rfl⟩
    rintro s₁ l s₂ ⟨hlinked, hbook⟩ hfollow hnote
    obtain ⟨app₂, hstep, rfl⟩ := Option.map_eq_some_iff.mp hnote
    have hadvanced := succeed_advances hlinked hfollow hstep
    refine ⟨hadvanced.linked, ?_⟩
    rw [hadvanced.recorded, hbook]
  rw [← hinv.2]
  exact hinv.1.remembers

end Sessions

/-! ## A branch that is edited, and a branch off the screen -/

namespace CheckedOut

open HalfMove

/-- Nothing is stored. -/
theorem branch_resumed :
    Resumed plainEnv branchRepo [rev branch] none (fun _ => none) fun _ => none where
  lookedUp := branch_lookedUp
  current r hr ref href := by
    obtain rfl := List.mem_singleton.mp hr
    cases href
    exact ⟨rfl, rfl⟩
  stored _ _ hno := by cases hno
  found _ _ hno := by cases hno

/-- What is noted down at the start of the session. -/
def branchStart : App (Option Commit) Unit × (Bytes → Option (Timeline Shown)) :=
  (branchApp, recorded plainEnv branchApp.repo branchApp.repoState)

/-- Delete the head of the branch, rename the branch, copy it, undo both changes, redo one of
them, restore the state at session start, and rename the branch again. -/
def branchEdits : List (Action × Inputs (Option Commit)) :=
  [(.resize ⟨100, 10⟩, noFault), (.select 0 {top} false, noFault), (.deleteCommits, noFault),
    (.rename 0 (ascii "next"), noFault), (.duplicate 0, noFault), (.undo 0, noFault),
    (.undo 0, noFault), (.redo 0, noFault), (.restore 0 none, noFault),
    (.rename 0 (ascii "last"), noFault)]

/-- What was undone and not redone is dropped. -/
theorem run_branchEdits :
    ∃ s, run (note plainEnv) branchStart branchEdits = some s ∧
      (s.2 (ascii "refs/heads/last")).map Timeline.states =
        some [(ascii "main", some top), (ascii "main", some root), (ascii "main", some top),
          (ascii "last", some top)] ∧
      Remembers plainEnv s.1 s.2 := by
  have hruns : (run (note plainEnv) branchStart branchEdits).map
      (fun s => (s.2 (ascii "refs/heads/last")).map Timeline.states) =
        some (some [(ascii "main", some top), (ascii "main", some root), (ascii "main", some top),
          (ascii "last", some top)]) := by
    decide +kernel
  obtain ⟨s, hrun, hs⟩ := Option.map_eq_some_iff.mp hruns
  exact ⟨s, hrun, hs, run_remembers branch_resumed rfl hrun (by decide +kernel)⟩

/-- The full name of a copy of the branch. -/
def copyName : Bytes := ascii "refs/heads/main2"

/-- Select the head of the branch, and branch off there while no column fits the window. -/
def offScreen : List (Action × Inputs (Option Commit)) :=
  [(.resize ⟨100, 10⟩, noFault), (.select 0 {top} false, noFault), (.resize ⟨30, 10⟩, noFault),
    (.branch none, noFault)]

/-- Delete the head of the new branch, which is still off the screen, and show it again. -/
def deleteOffScreen : List (Action × Inputs (Option Commit)) :=
  offScreen ++ [(.deleteCommits, noFault), (.resize ⟨100, 10⟩, noFault)]

/-- The history of the new branch is not loaded before its head is deleted, so it begins with
the branch as it is afterwards, and undo leaves the branch like that. -/
theorem run_offScreen :
    Resumed plainEnv branchRepo [rev branch] none (fun _ => none) (fun _ => none) ∧
      start plainEnv noFault branchRepo [rev branch] (fun _ => none) (fun _ => none) none false
        ⟨100, 10⟩ () = some branchApp ∧
      (run (succeed plainEnv) branchApp offScreen).map (fun app => app.showing copyName) =
        some (some (ascii "main2", some top)) ∧
      (run (succeed plainEnv) branchApp deleteOffScreen).map
          (fun app => (app.showing copyName, app.columnRef (.undo 1))) =
        some (some (ascii "main2", some root), some copyName) ∧
      (run (succeed plainEnv) branchApp (deleteOffScreen ++ [(.undo 1, noFault)])).map
          (fun app => app.showing copyName) =
        some (some (ascii "main2", some root)) ∧
      top ≠ root :=
  ⟨branch_resumed, rfl, by decide +kernel, by decide +kernel, by decide +kernel, by decide⟩

end CheckedOut

end App
end Debase
