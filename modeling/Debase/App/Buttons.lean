import Debase.App.Offered
import Debase.App.Reload

/-!
# The buttons of the columns

A column has a button to undo and one to redo, a menu of snapshots, and a field with the name of its
ref.  They are shown where the rev may be changed, and `_reload` enables the first two as the history
of the ref is then.  As long as nothing is thrown they do exactly what is offered (`run_columnDoes`);
after an exception, a button may be enabled for a history that is gone, and who clicks it ends
debase (`perform_notOffered`).
-/

namespace Debase

open Git Library

namespace App

variable {κ ω : Type}

/-- The actions of the buttons, the snapshots menu and the name field of a column. -/
def ofColumn : Action → Bool
  | .undo _ => true
  | .redo _ => true
  | .restore _ _ => true
  | .rename _ _ => true
  | _ => false

/-- What the views of a column do when they are used. -/
def columnDoes (app : App κ ω) : Action → Bool
  | .undo i => (app.columns[i]?).any fun col => col.rev.isMutable && col.undoEnabled
  | .redo i => (app.columns[i]?).any fun col => col.rev.isMutable && col.redoEnabled
  -- a menu that is left without a choice restores a snapshot that is not there
  | .restore i _ => (app.columns[i]?).any fun col => col.rev.isMutable
  | .rename i name =>
      (app.columns[i]?).any fun col =>
        col.rev.isMutable && col.rev.ref.any fun ref => name ≠ ref.name
  | _ => false

/-- The buttons of a column are enabled as its history is. -/
structure Lit (app : App κ ω) (col : Ui.RevColumn) : Prop where
  loaded : ∀ ref, col.rev.ref = some ref → (app.repoState ref.fullName).isSome
  undo : col.undoEnabled = (app.historyOf col.rev).any fun h => !h.atBegin
  redo : col.redoEnabled = (app.historyOf col.rev).any fun h => !h.atEnd

/-- The buttons of all columns are enabled as the histories are. -/
def AllLit (app : App κ ω) : Prop := ∀ col ∈ app.columns, Lit app col

theorem Lit.congr {app app' : App κ ω} {col : Ui.RevColumn} (h : Lit app col)
    (hkept : ∀ ref, col.rev.ref = some ref → (app.repoState ref.fullName).isSome →
      app'.repoState ref.fullName = app.repoState ref.fullName) : Lit app' col := by
  have hhistory : app'.historyOf col.rev = app.historyOf col.rev := by
    unfold historyOf
    cases href : col.rev.ref with
    | none => rfl
    | some ref =>
        rw [Option.bind_some, Option.bind_some, hkept ref href (h.loaded ref href)]
  refine ⟨fun ref href => ?_, ?_, ?_⟩
  · rw [hkept ref href (h.loaded ref href)]
    exact h.loaded ref href
  · rw [hhistory]
    exact h.undo
  · rw [hhistory]
    exact h.redo

/-! ## Columns whose buttons are enabled as the histories are -/

section Lit

variable {app : App κ ω}

theorem colRef_of_column {i : Nat} {col : Ui.RevColumn} (hcol : app.columns[i]? = some col) :
    app.colRef i = if col.rev.isMutable then col.rev.ref else none := by
  unfold colRef colRev
  rw [hcol]
  rfl

theorem canUndoRedo_of_column {i : Nat} {col : Ui.RevColumn} (hcol : app.columns[i]? = some col)
    (undo : Bool) : app.canUndoRedo i undo = (col.rev.isMutable &&
      (app.historyOf col.rev).any fun h => if undo then !h.atBegin else !h.atEnd) := by
  unfold canUndoRedo historyOf
  rw [colRef_of_column hcol]
  cases col.rev.isMutable with
  | false => rfl
  | true =>
      rw [if_pos rfl, Bool.true_and]
      cases (col.rev.ref.bind fun ref => app.repoState ref.fullName) with
      | none => rfl
      | some lref =>
          cases undo with
          | true => exact State.History.isSome_prevPeek _
          | false => exact State.History.isSome_nextPeek _

/-- The menu of snapshots is there where it is offered. -/
theorem columnDoes_restore (app : App κ ω) (i : Nat) (choice : Option Nat) :
    app.columnDoes (.restore i choice) = (app.colRef i).isSome := by
  show (app.columns[i]?).any _ = _
  cases hcol : app.columns[i]? with
  | none =>
      unfold colRef colRev
      rw [hcol]
      rfl
  | some col =>
      rw [Option.any_some]
      cases hmutable : col.rev.isMutable with
      | false =>
          rw [colRef_of_column hcol, hmutable]
          rfl
      | true =>
          obtain ⟨ref, -, href⟩ := colRef_isSome hcol hmutable
          rw [href]
          rfl

/-- The name field does what is offered. -/
theorem columnDoes_rename (app : App κ ω) (i : Nat) (name : Bytes) :
    app.columnDoes (.rename i name) = (app.colRef i).any fun ref => name ≠ ref.name := by
  show (app.columns[i]?).any _ = _
  cases hcol : app.columns[i]? with
  | none =>
      unfold colRef colRev
      rw [hcol]
      rfl
  | some col =>
      rw [Option.any_some, colRef_of_column hcol]
      cases col.rev.isMutable with
      | false => rfl
      | true =>
          rw [if_pos rfl]
          rfl

/-- Where the buttons are enabled as the histories are, the views of the columns do what is
offered. -/
theorem AllLit.columnDoes_eq (h : AllLit app) (action : Action) :
    app.columnDoes action = (ofColumn action && app.offers action) := by
  have hundoRedo (i : Nat) (undo : Bool) : ((app.columns[i]?).any fun col =>
      col.rev.isMutable && if undo then col.undoEnabled else col.redoEnabled) =
      app.canUndoRedo i undo := by
    cases hcol : app.columns[i]? with
    | none =>
        unfold canUndoRedo colRef colRev
        rw [hcol]
        rfl
    | some col =>
        have hlit := h col (List.mem_of_getElem? hcol)
        rw [canUndoRedo_of_column hcol, Option.any_some]
        cases undo with
        | true =>
            rw [if_pos rfl, hlit.undo]
            rfl
        | false =>
            rw [if_neg Bool.false_ne_true, hlit.redo]
            rfl
  cases action with
  | undo i => exact hundoRedo i true
  | redo i => exact hundoRedo i false
  | restore i choice => exact columnDoes_restore app i choice
  | rename i name => exact columnDoes_rename app i name
  | _ => rfl

end Lit

/-! ## What enables the buttons -/

section Enabling

variable [DecidableEq κ] {env : Env κ ω} {inputs : Inputs κ} {app : App κ ω}

theorem Lit.load {col : Ui.RevColumn} (h : Lit app col) (ref : Ref) :
    Lit (app.load env inputs ref) col := by
  refine h.congr fun ref' _ hloaded => ?_
  have hcases := @State.loadRef_apply κ _ env.ids (fun _ => none) inputs.now app.repoState ref none
    ref'.fullName
  rcases hcases with hsame | ⟨-, hnone, -⟩
  · exact hsame
  · rw [hnone] at hloaded
    cases hloaded

/-- A column that is made once the history of its rev is loaded, beside columns whose buttons are
enabled as their histories are. -/
theorem reloadColumns_lit (revs : List Rev) {offX : Int} {count : Nat} {app : App κ ω}
    (hcount : count ≤ app.columns.length) (hdone : ∀ col ∈ app.columns.take count, Lit app col) :
    AllLit (reloadColumns env inputs revs offX count app) := by
  induction revs generalizing offX count app with
  | nil => exact fun col hcol => (hdone col hcol).congr fun _ _ _ => rfl
  | cons rev revs ih =>
      have hload : (app.loadRev env inputs rev).columns = app.columns ∧
          (∀ ref, rev.ref = some ref →
            ((app.loadRev env inputs rev).repoState ref.fullName).isSome) ∧
          ∀ col, Lit app col → Lit (app.loadRev env inputs rev) col := by
        unfold loadRev
        cases rev.ref with
        | none => exact ⟨rfl, by rintro _ ⟨⟩, fun _ h => h⟩
        | some ref =>
            refine ⟨rfl, ?_, fun _ h => h.load ref⟩
            rintro _ ⟨⟩
            exact isSome_load ref
      rw [reloadColumns]
      dsimp only
      generalize app.loadRev env inputs rev = loaded at hload ⊢
      obtain ⟨hcolumns, hloaded, hlit⟩ := hload
      have hdone' : ∀ col ∈ loaded.columns.take count, Lit loaded col := by
        rw [hcolumns]
        exact fun col hcol => hlit col (hdone col hcol)
      split
      · exact fun col hcol => (hdone' col hcol).congr fun _ _ _ => rfl
      · generalize hcol : Ui.RevColumn.reload env.height _ = col
        have hnew : Lit loaded col := by
          rw [← hcol]
          exact ⟨hloaded, rfl, rfl⟩
        have hlength : (loaded.columns.take count).length = count := by
          rw [List.length_take, hcolumns]
          exact Nat.min_eq_left hcount
        refine ih (by simp [hlength]) fun c hc => ?_
        have hmade : Lit loaded c := by
          dsimp only at hc
          rw [List.take_append, hlength, List.take_of_length_le (by omega)] at hc
          rcases List.mem_append.mp hc with hc | hc
          · exact hdone' c hc
          · simp at hc
            rw [hc]
            exact hnew
        exact hmade.congr fun _ _ _ => rfl

/-- `_reload` enables the buttons as the histories are. -/
theorem reload_lit (app : App κ ω) :
    Program.Returns (reload env inputs) app fun _ app' => AllLit app' := by
  unfold reload
  refine .last fun _ _ => .read_bind (.last fun _ _ => ?_)
  exact .update (reloadColumns_lit _ (Nat.zero_le _) fun col hno => by simp at hno)

/-- The columns and the histories stay as they are. -/
def KeepsButtons (app app' : App κ ω) : Prop :=
  app'.columns = app.columns ∧ app'.repoState = app.repoState

instance : Std.Refl (KeepsButtons (κ := κ) (ω := ω)) := ⟨fun _ => ⟨rfl, rfl⟩⟩

instance : IsTrans (App κ ω) KeepsButtons :=
  ⟨fun _ _ _ h h' => ⟨h'.1.trans h.1, h'.2.trans h.2⟩⟩

omit [DecidableEq κ] in
theorem AllLit.keep {app' : App κ ω} (h : AllLit app) (hkept : KeepsButtons app app') :
    AllLit app' := by
  intro col hcol
  rw [hkept.1] at hcol
  exact (h col hcol).congr fun _ _ _ => by rw [hkept.2]

omit [DecidableEq κ] in
theorem revReplace_keepsButtons (rev : Rev) (ref : Ref) (commit : Option Commit) :
    Program.Keeps KeepsButtons (Modify.revReplace (gitCtx env inputs) rev ref commit) := by
  have hrepo {α : Type} (x : Program Repository Exn α) :
      Program.Keeps KeepsButtons (inRepo x : Program (App κ ω) Exn α) :=
    .zoom (fun _ _ => ⟨rfl, rfl⟩) x
  have hdetach : Program.Keeps KeepsButtons
      (gitDetachHeadIfEqual inputs ref : Program (App κ ω) Exn Bool) := by
    refine .bind (fun app => refl_of KeepsButtons app) fun app => ?_
    split
    · exact Program.Keeps.pure false
    · cases app.headReattach with
      | true => exact Program.Keeps.pure true
      | false =>
          exact .bind (.update fun _ => ⟨rfl, rfl⟩) fun _ => (hrepo _).bind fun _ => .pure true
  cases commit with
  | none => exact .fail _
  | some commit =>
      refine (hdetach.bind fun _ => hrepo _).bind fun _ => Program.Keeps.bind (fun app => ?_)
        fun _ => .pure _
      exact Program.Ends.state (call_ends (refl_of KeepsButtons app) fun _ _ => refl_of _ app)

omit [DecidableEq κ] in
theorem exec_keepsButtons (op : Modify.Op) :
    Program.Keeps KeepsButtons (Modify.exec (gitCtx env inputs) op) := by
  refine Modify.exec_keeps gitCtx_quiet (fun app app' hout => ?_) revReplace_keepsButtons op
  rw [show app' = _ from hout]
  exact ⟨rfl, rfl⟩

theorem gitOpExec_lit (h : AllLit app) (op : Modify.Op) :
    Program.Returns (gitOpExec env inputs op) app fun _ app' => AllLit app' := by
  unfold gitOpExec
  refine Program.Returns.bind (.of_ends ((exec_keepsButtons op).ends app)) fun result app₁ hkept => ?_
  cases result with
  | none => exact .pure (h.keep hkept)
  | some result =>
      dsimp only
      split
      · exact .fail
      · exact .last fun _ _ => .last fun _ _ => .last fun _ _ => reload_lit _

theorem undoRedo_lit (rev : Rev) (undo : Bool) :
    Program.Returns (undoRedo env inputs rev undo) app fun _ app' => AllLit app' := by
  unfold undoRedo
  cases rev.ref with
  | none => exact .fail
  | some ref =>
      refine .last fun lref app₁ => ?_
      cases (if undo then lref.history.prevPeek else lref.history.nextPeek) with
      | none => exact .last fun _ app' => reload_lit app'
      | some refState => exact .last fun _ app' => reload_lit app'

theorem revCreate_lit (branch : Bool) (template : Rev) (commit : Commit) :
    Program.Returns (revCreate env inputs branch template commit) app fun _ app' => AllLit app' := by
  refine revCreate_ends trivial (fun ref => ?_) fun x _ => ?_
  · exact .zoom ((branchNameLocal_ends ref).mono (fun _ _ h => by rw [h]) fun _ _ _ => trivial)
  · refine Program.Returns.last fun _ _ => .last fun _ _ => .read_bind ?_
    split
    · exact .fail
    · exact .last fun _ app' => reload_lit app'

theorem snapshotRestore_lit (h : AllLit app) (ref : Ref) (choice : Option Nat) :
    Program.Returns (snapshotRestore env inputs ref choice) app fun _ app' => AllLit app' := by
  have hload : AllLit (app.load env inputs ref) := fun col hcol => (h col hcol).load ref
  unfold snapshotRestore
  refine Program.Returns.bind (show Program.Returns (loadRef env inputs ref) app
    fun _ app' => app' = app.load env inputs ref from rfl) fun lref _ happ => ?_
  subst happ
  cases snapshotChosen lref choice with
  | none => exact .pure hload
  | some snapshot =>
      dsimp only
      split
      · exact .pure hload
      · exact .last fun _ _ => .last fun _ _ => .last fun _ _ => .last fun _ _ => reload_lit _

omit [DecidableEq κ] in
theorem withRev_lit {α : Type} (rev : Option α) {f : α → Program (App κ ω) Exn Unit}
    (hf : ∀ a, Program.Returns (f a) app fun _ app' => AllLit app') :
    Program.Returns (withRev rev f) app fun _ app' => AllLit app' := by
  cases rev with
  | none => exact .fail
  | some a => exact hf a

/-- An action that succeeds leaves buttons that are enabled as the histories are. -/
theorem perform_lit (h : AllLit app) (action : Action) :
    Program.Returns (perform env inputs action) app fun _ app' => AllLit app' := by
  unfold perform
  refine Program.Returns.read_bind ?_
  cases action with
  | resize size => exact .last fun _ app' => reload_lit app'
  | select i commits shift => exact .update fun col hcol => (h col hcol).congr fun _ _ _ => rfl
  | deselect => exact .update fun col hcol => (h col hcol).congr fun _ _ _ => rfl
  | drop i position copy => exact gitOpExec_lit h _
  | deleteCommits => exact gitOpExec_lit h _
  | combine => exact gitOpExec_lit h _
  | edit => exact gitOpExec_lit h _
  | undo i => exact withRev_lit _ fun rev => undoRedo_lit rev true
  | redo i => exact withRev_lit _ fun rev => undoRedo_lit rev false
  | restore i choice => exact withRev_lit _ fun ref => snapshotRestore_lit h ref choice
  | rename i name =>
      exact withRev_lit _ fun ref =>
        .last fun _ _ => .last fun _ _ => .last fun _ app' => reload_lit app'
  | remove i => exact withRev_lit _ fun ref => .last fun _ app' => reload_lit app'
  | duplicate i => exact withRev_lit _ fun rev => revCreate_lit _ _ _
  | branch col => exact withRev_lit _ fun rev => withRev_lit _ fun commit => revCreate_lit _ _ _

/-- As long as every action succeeds, the views of the columns do what is offered. -/
theorem run_columnDoes {app' : App κ ω} {ls : List (Action × Inputs κ)}
    (h : run (succeed env) app ls = some app') (hstart : AllLit app) (action : Action) :
    app'.columnDoes action = (ofColumn action && app'.offers action) := by
  have hstep (app₁ : App κ ω) (l : Action × Inputs κ) (app₂ : App κ ω) (hlit : AllLit app₁)
      (_ : True) (hstep : succeed env app₁ l = some app₂) : AllLit app₂ := by
    obtain ⟨-, hperform⟩ := succeed_eq_some.mp hstep
    exact (perform_lit hlit l.1).of_ok hperform
  exact (Run.invariant hstep h (Run.stepsMeet_of_forall (fun _ _ _ => trivial) _) hstart).columnDoes_eq
    action

end Enabling

/-! ## What the views of a column do otherwise -/

section Stale

variable [DecidableEq κ] {env : Env κ ω} {inputs : Inputs κ} {app : App κ ω}

/-- Where there is nothing to undo or redo, debase ends with the history of the ref loaded. -/
theorem undoRedo_notOffered {rev : Rev} {ref : Ref} (href : rev.ref = some ref) (undo : Bool)
    (hno : ∀ lref, app.repoState ref.fullName = some lref →
      (if undo then lref.history.prevPeek else lref.history.nextPeek) = none) :
    undoRedo env inputs rev undo app = (.error .abort, app.load env inputs ref) := by
  have hnone : (if undo then (app.loaded env inputs ref).history.prevPeek
      else (app.loaded env inputs ref).history.nextPeek) = none := by
    unfold loaded
    cases hloaded : app.repoState ref.fullName with
    | some lref => exact hno lref hloaded
    | none =>
        rw [Option.getD_none, history_loadedRef]
        cases undo with
        | true => rfl
        | false => rfl
  have hload : loadRef env inputs ref app = (.ok (app.loaded env inputs ref),
      app.load env inputs ref) := rfl
  unfold undoRedo
  rw [href]
  dsimp only
  rw [Program.bind_run_ok hload, hnone]
  rfl

/-- Where the views of a column do what is not offered, debase ends. -/
theorem perform_notOffered {action : Action} (hdoes : app.columnDoes action = true)
    (hno : app.offers action = false) : ∃ i ref, app.colRef i = some ref ∧
      perform env inputs action app = (.error .abort, app.load env inputs ref) := by
  have hundoRedo {i : Nat} {undo : Bool} {enabled : Ui.RevColumn → Bool}
      (hdoes : (app.columns[i]?).any (fun col => col.rev.isMutable && enabled col) = true)
      (hno : app.canUndoRedo i undo = false) : ∃ ref, app.colRef i = some ref ∧
      withRev (app.colRev i) (fun rev => undoRedo env inputs rev undo) app =
        (.error .abort, app.load env inputs ref) := by
    cases hcol : app.columns[i]? with
    | none =>
        rw [hcol] at hdoes
        cases hdoes
    | some col =>
        rw [hcol] at hdoes
        obtain ⟨ref, href, hcolRef⟩ := colRef_isSome hcol (Bool.and_eq_true_iff.mp hdoes).1
        refine ⟨ref, hcolRef, ?_⟩
        rw [colRev, hcol, Option.map_some]
        refine undoRedo_notOffered href undo fun lref hlref => ?_
        unfold canUndoRedo at hno
        rw [hcolRef, Option.bind_some, hlref] at hno
        exact Option.not_isSome_iff_eq_none.mp (ne_true_of_eq_false hno)
  unfold perform
  cases action with
  | undo i =>
      obtain ⟨ref, href, hrun⟩ := hundoRedo hdoes hno
      exact ⟨i, ref, href, hrun⟩
  | redo i =>
      obtain ⟨ref, href, hrun⟩ := hundoRedo hdoes hno
      exact ⟨i, ref, href, hrun⟩
  | restore i choice =>
      rw [columnDoes_restore] at hdoes
      exact absurd (hdoes.symm.trans hno) Bool.true_eq_false.mp
  | rename i name =>
      rw [columnDoes_rename] at hdoes
      exact absurd (hdoes.symm.trans hno) Bool.true_eq_false.mp
  | _ => cases hdoes

/-- The history of a ref is loaded when the menu of its snapshots is opened. -/
theorem restore_loads {i : Nat} {ref : Ref} (hcol : app.colRef i = some ref) :
    perform env inputs
        (.restore i (some (app.loaded env inputs ref).refState.snapshots.length)) app =
      (.ok (), app.load env inputs ref) := by
  have hload : loadRef env inputs ref app = (.ok (app.loaded env inputs ref),
      app.load env inputs ref) := rfl
  have hleft : snapshotChosen (app.loaded env inputs ref)
      (some (app.loaded env inputs ref).refState.snapshots.length) = none :=
    List.getElem?_eq_none (Nat.le_refl _)
  unfold perform
  rw [Program.bind_run_ok (Program.read_run app)]
  dsimp only
  rw [hcol]
  show snapshotRestore env inputs ref _ app = _
  unfold snapshotRestore
  rw [Program.bind_run_ok hload, hleft]
  rfl

end Stale

section Arriving

variable [DecidableEq κ] {env : GuiEnv κ ω} {inputs : Inputs κ}

theorem Arrives.load {app : App κ ω} {i : Nat} {ref : Ref} (hcol : app.colRef i = some ref) :
    Arrives env inputs app (app.load env.toEnv inputs ref) := by
  have hperforms : Arrives env inputs app (App.perform env.toEnv inputs (.restore i
      (some (app.loaded env.toEnv inputs ref).refState.snapshots.length)) app).2 :=
    Arrives.perform (show (app.colRef i).isSome = true by rw [hcol]; rfl)
  rwa [restore_loads hcol] at hperforms

/-- Offered actions lead to where the application is once the views of a column did something. -/
theorem Gui.leads_columnDoes {g : Gui κ ω} {action : Action} (h : g.app.columnDoes action = true) :
    Leads env inputs (inApp (perform env.toEnv inputs action)) g := by
  cases hoffers : g.app.offers action with
  | true => exact leads_inApp action hoffers rfl
  | false =>
      obtain ⟨i, ref, hcol, hrun⟩ := @perform_notOffered κ ω _ env.toEnv inputs _ _ h hoffers
      unfold Leads Program.Ends inApp
      rw [hrun]
      exact Arrives.load hcol

end Arriving

end App
end Debase
