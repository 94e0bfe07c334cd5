import Debase.App.State
import Debase.Git.Outcome
import Debase.Library.Run

/-!
# Runs of a session

A session goes from one action to the next, each of them offered by the user
interface.  An action that throws shows an error message and the session goes on with
what it left behind.  At exit `run` restores the head that was detached.
-/

namespace Debase

open Git Library

namespace App

variable {κ ω : Type}

/-- The operation on commits that an action is. -/
def opOf (app : App κ ω) : Action → Option Modify.Op
  | .drop i position copy =>
      some ⟨if copy then .copy else .move, ⟨app.selection.rev, app.selection.commits⟩,
        ⟨app.colRev i, position⟩⟩
  | .deleteCommits => some (app.selectionOp .delete)
  | .combine => some (app.selectionOp .combine)
  | .edit => some (app.selectionOp .edit)
  | _ => none

/-- What is checked out at exit. -/
def reattached (app : App κ ω) : Option GitRev := if app.headReattach then app.head else none

section Runs

variable [DecidableEq κ] (env : Env κ ω)

/-- The state that an action restores to the ref of its column. -/
def restoredOf (inputs : Inputs κ) (app : App κ ω) :
    Action → Option (Ref × State.RefState κ)
  | .undo i => do
      let ref ← app.colRef i
      let x ← (app.loaded env inputs ref).history.prevPeek
      pure (ref, x.refState)
  | .redo i => do
      let ref ← app.colRef i
      let x ← (app.loaded env inputs ref).history.nextPeek
      pure (ref, x.refState)
  | .restore i choice => do
      let ref ← app.colRef i
      let lref := app.loaded env inputs ref
      let snapshot ← snapshotChosen lref choice
      if snapshot.refState = lref.history.current.refState then none
      else pure (ref, snapshot.refState)
  | _ => none

/-- An action that is offered, however it ends. -/
def step (app : App κ ω) (l : Action × Inputs κ) : Option (App κ ω) :=
  if app.offers l.1 then some (perform env l.2 l.1 app).2 else none

/-- An action that is offered and succeeds. -/
def succeed (app : App κ ω) (l : Action × Inputs κ) : Option (App κ ω) :=
  if app.offers l.1 then
    match perform env l.2 l.1 app with
    | (.ok _, app') => some app'
    | (.error _, _) => none
  else none

variable {env} {app app' : App κ ω} {l : Action × Inputs κ}

theorem step_eq_some : step env app l = some app' ↔
    app.offers l.1 = true ∧ (perform env l.2 l.1 app).2 = app' := by
  unfold step
  by_cases h : app.offers l.1 = true
  · simp [h]
  · simp [h]

theorem succeed_eq_some : succeed env app l = some app' ↔
    app.offers l.1 = true ∧ perform env l.2 l.1 app = (.ok (), app') := by
  unfold succeed
  by_cases h : app.offers l.1 = true
  · rcases hp : perform env l.2 l.1 app with ⟨e | u, app₁⟩
    · simp [h]
    · simp [h]
  · simp [h]

/-- What holds of the outcome of an action holds of the state after its step. -/
theorem step_of_ends {P : App κ ω → Prop} (hstep : step env app l = some app')
    (hends : app.offers l.1 = true →
      Program.Ends (perform env l.2 l.1) app (fun _ app' => P app') fun _ app' => P app') :
    P app' := by
  obtain ⟨hoffers, happ⟩ := step_eq_some.mp hstep
  have h := hends hoffers
  rcases hp : perform env l.2 l.1 app with ⟨e | u, app₁⟩
  · rw [hp] at happ
    exact happ ▸ h.of_error hp
  · rw [hp] at happ
    exact happ ▸ h.of_ok hp

variable {inputs : Inputs κ} {i : Nat} {ref : Ref}

theorem restoredOf_undo {x : State.HistoryRefState κ} (hcol : app.colRef i = some ref)
    (hpeek : (app.loaded env inputs ref).history.prevPeek = some x) :
    app.restoredOf env inputs (.undo i) = some (ref, x.refState) := by
  simp [restoredOf, hcol, hpeek]

theorem restoredOf_redo {x : State.HistoryRefState κ} (hcol : app.colRef i = some ref)
    (hpeek : (app.loaded env inputs ref).history.nextPeek = some x) :
    app.restoredOf env inputs (.redo i) = some (ref, x.refState) := by
  simp [restoredOf, hcol, hpeek]

theorem restoredOf_restore {choice : Option Nat} {snapshot : State.Snapshot κ}
    (hcol : app.colRef i = some ref)
    (hchosen : snapshotChosen (app.loaded env inputs ref) choice = some snapshot)
    (hdiffers : snapshot.refState ≠ (app.loaded env inputs ref).history.current.refState) :
    app.restoredOf env inputs (.restore i choice) = some (ref, snapshot.refState) := by
  simp [restoredOf, hcol, hchosen, hdiffers]

end Runs

/-! ## The refs of an operation -/

section Targets

variable {app : App κ ω} {ref : Ref}

/-- An operation on the selection alone rewrites the ref of its rev. -/
theorem targets_selectionOp {type : Modify.OpType} (h : ref ∈ (app.selectionOp type).targets) :
    ∃ src, app.selection.rev = some src ∧ src.ref = some ref := by
  rcases Modify.Op.mem_targets h with ⟨-, hsrc⟩ | ⟨dst, hdst, -⟩
  · exact hsrc
  · cases hdst

/-- A drop that is offered rewrites the ref of its column, and it rewrites the ref of the
selection only if that may be changed. -/
theorem targets_drop {i : Nat} {position : Option Commit} {copy : Bool} {op : Modify.Op}
    (hoffers : app.offers (.drop i position copy) = true)
    (hop : app.opOf (.drop i position copy) = some op) (h : ref ∈ op.targets) :
    (app.selectionIsMutable = true ∧ ∃ src, app.selection.rev = some src ∧ src.ref = some ref) ∨
      app.colRef i = some ref := by
  cases hop
  simp only [offers, Bool.and_eq_true, Bool.or_eq_true, decide_eq_true_eq] at hoffers
  obtain ⟨⟨⟨-, hcol⟩, hcopy⟩, -⟩ := hoffers
  rcases Modify.Op.mem_targets h with ⟨htype, hsrc⟩ | ⟨dst, hdst, hdstRef⟩
  · rcases hcopy with rfl | hmutable
    · exact absurd rfl htype
    · exact Or.inl ⟨hmutable, hsrc⟩
  · obtain ⟨ref', hcol⟩ := Option.isSome_iff_exists.mp hcol
    obtain ⟨col, -, hrev, hrevRef, -⟩ := rev_of_colRef hcol
    have hsame : col.rev = dst := Option.some.inj (hrev.symm.trans hdst)
    rw [hsame, hdstRef] at hrevRef
    cases hrevRef
    exact Or.inr hcol

end Targets

/-! ## Creating refs -/

section Create

variable [DecidableEq κ] (env : Env κ ω) (inputs : Inputs κ)

/-- The ways in which `_revCreate` creates a ref: under one name after the other, as a new
branch or as a copy of the ref of the template. -/
inductive Creates (branch : Bool) (template : Rev) (commit : Commit) :
    Program Repository Exn Ref → Prop where
  | branch (l : List Bytes) :
      Creates branch template commit (createFirst
        (fun fullName => branchCreate env.names inputs.fault fullName commit false) l)
  | copy {ref : Ref} (name : Bytes) (hcopy : branch = false) (href : template.ref = some ref)
      (hname : ref.isBranch = false → name = ref.name) :
      Creates branch template commit (createFirst
        (fun fullName => refCopy env.names inputs.fault ref fullName (some commit))
        (candidates name true))

/-- The end of `_revCreate`: the new ref gets a column of its own. -/
def revCreateEnd (x : Program Repository Exn Ref) (template : Rev) (commit : Commit) :
    Program (App κ ω) Exn Unit := do
  let ref ← inRepo x
  inRepo (reflogRememberRef inputs.fault ref)
  let rev : Rev := ⟨.ofRef ref, 0, .allowed⟩
  let app ← Program.read
  match app.revs.findIdx? (Rev.same template) with
  | none => .fail .abort
  | some i => do
      Program.update fun app =>
        { app with
          revs := app.revs.insertIdx (i + 1) rev
          selection := ⟨some rev, {commit}⟩ }
      reload env inputs

variable {env inputs} {app : App κ ω}

/-- The rule for `_revCreate`: what it does before it creates the ref has no effect. -/
theorem revCreate_ends {Q : Unit → App κ ω → Prop} {E : Exn → App κ ω → Prop} {branch : Bool}
    {template : Rev} {commit : Commit} (habort : E .abort app)
    (hlocal : ∀ ref, Program.Ends (inRepo (branchNameLocal env.names inputs.fault ref)) app
      (fun _ app' => app' = app) E)
    (hend : ∀ x, Creates env inputs branch template commit x →
      Program.Ends (revCreateEnd env inputs x template commit) app Q E) :
    Program.Ends (revCreate env inputs branch template commit) app Q E := by
  unfold revCreate
  cases href : template.ref with
  | none =>
      refine .bind (.pure ?_)
      dsimp only
      rw [if_neg (show ¬ascii "NewBranch" = [] by decide)]
      cases branch with
      | true => exact hend _ (.branch _)
      | false => exact hend _ (.branch _)
  | some ref =>
      dsimp only
      by_cases hbranch : ref.isBranch = true
      · rw [if_pos hbranch]
        refine .bind ((hlocal ref).mono (fun name app' happ => ?_) fun _ _ he => he)
        rw [happ]
        split
        · exact .fail habort
        · cases branch with
          | true => exact hend _ (.branch _)
          | false => exact hend _ (.copy name rfl href fun hno => absurd hbranch (by simp [hno]))
      · rw [if_neg hbranch]
        refine .bind (.pure ?_)
        split
        · exact .fail habort
        · cases branch with
          | true => exact hend _ (.branch _)
          | false => exact hend _ (.copy ref.name rfl href fun _ => rfl)

end Create

end App
end Debase
