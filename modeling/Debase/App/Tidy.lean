import Debase.App.Safety
import Debase.App.Session

/-!
# The selection and the columns between actions

Whatever actions are done, and however they end, the commits that are selected are those of a rev,
and the columns are as some reload left them: each shows the commits of its rev that fit, below
those that it skips.
-/

namespace Debase

open Git Library

namespace App

variable {κ ω : Type}

/-- Commits are selected in some rev. -/
def Owned (selection : Ui.Selection) : Prop := selection.commits ≠ ∅ → selection.rev.isSome

/-- The columns show the commits that fit a height, each below those that its rev skips. -/
def Laid (columns : List Ui.RevColumn) : Prop :=
  ∃ height bottom, ∀ col ∈ columns,
    col.panels = Ui.fitting height bottom (col.rev.commit.chain.drop col.rev.skip)

/-- What holds of the application between actions. -/
structure Tidy (app : App κ ω) : Prop where
  owned : Owned app.selection
  laid : Laid app.columns

/-- The place of a column on the screen, by its place from the left. -/
def columnX (i : Nat) : Int := columnInsetX + i * (columnWidth + columnSpacing)

/-- Columns as a reload makes them on a screen of a height: one beside the other, and each with the
commits that fit. -/
def AlignedOn (height : Commit → Int) (sizeY : Int) (columns : List Ui.RevColumn) : Prop :=
  ∀ (i : Nat) (col : Ui.RevColumn), columns[i]? = some col →
    col.frame = ⟨⟨columnX i, 0⟩, ⟨columnWidth, sizeY⟩⟩ ∧
      col.panels = Ui.fitting height (sizeY - Ui.commitsInsetY)
        (col.rev.commit.chain.drop col.rev.skip)

/-- Columns as a reload makes them. -/
def Aligned (columns : List Ui.RevColumn) : Prop :=
  ∃ height sizeY, AlignedOn height sizeY columns

/-- The selection has a rev if it had one before, and the columns are as they were or as a reload
made them. -/
structure KeepsTidy (app app' : App κ ω) : Prop where
  owned : Owned app.selection → Owned app'.selection
  columns : app'.columns = app.columns ∨ Aligned app'.columns

instance : Std.Refl (KeepsTidy (κ := κ) (ω := ω)) := ⟨fun _ => ⟨fun h => h, Or.inl rfl⟩⟩

instance : IsTrans (App κ ω) KeepsTidy where
  trans _ _ _ h h' :=
    ⟨fun howned => h'.owned (h.owned howned), h'.columns.elim
      (fun hsame => by rw [hsame]; exact h.columns) Or.inr⟩

theorem Aligned.laid {columns : List Ui.RevColumn} (h : Aligned columns) : Laid columns := by
  obtain ⟨height, sizeY, haligned⟩ := h
  refine ⟨height, sizeY - Ui.commitsInsetY, fun col hcol => ?_⟩
  obtain ⟨i, hget⟩ := List.getElem?_of_mem hcol
  exact (haligned i col hget).2

theorem KeepsTidy.tidy {app app' : App κ ω} (h : KeepsTidy app app') (htidy : Tidy app) :
    Tidy app' := by
  refine ⟨h.owned htidy.owned, ?_⟩
  rcases h.columns with hsame | haligned
  · rw [hsame]
    exact htidy.laid
  · exact haligned.laid

theorem KeepsTidy.aligned {app app' : App κ ω} (h : KeepsTidy app app')
    (haligned : Aligned app.columns) : Aligned app'.columns := by
  rcases h.columns with hsame | hnew
  · rwa [hsame]
  · exact hnew

/-- A program leaves the application that way, however it ends. -/
abbrev Tidies {α : Type} (x : Program (App κ ω) Exn α) : Prop := Program.Keeps KeepsTidy x

theorem owned_some (rev : Rev) (commits : Finset Commit) : Owned ⟨some rev, commits⟩ := fun _ => rfl

theorem owned_empty (rev : Option Rev) : Owned ⟨rev, ∅⟩ := fun h => absurd rfl h

/-- A session begins without a selection and without columns. -/
theorem tidy_plainApp (repo : Repository) (head : Option GitRev) (revs : List Rev) :
    Tidy (plainApp repo head revs) :=
  ⟨owned_empty none, fun _ => 0, 0, fun _ hno => (nomatch hno)⟩

theorem read_tidies : Tidies (Program.read : Program (App κ ω) Exn _) :=
  fun app => refl_of KeepsTidy app

theorem inRepo_tidies {α : Type} (x : Program Repository Exn α) :
    Tidies (inRepo x : Program (App κ ω) Exn α) :=
  .zoom (fun _ _ => ⟨fun h => h, Or.inl rfl⟩) x

theorem setLoaded_tidies (ref : Ref) (lref : State.LoadedRef κ) :
    Tidies (setLoaded ref lref : Program (App κ ω) Exn Unit) :=
  .update fun _ => ⟨fun h => h, Or.inl rfl⟩

theorem call_tidies (fault : Fault) (c : Call) : Tidies (call fault c : Program (App κ ω) Exn Unit) := by
  unfold call
  split
  · exact .pure ()
  · split
    · exact .fail _
    · exact .pure ()

section Refs

variable (env : Env κ ω) (inputs : Inputs κ)

theorem reloadRevs_tidies (done revs : List Rev) :
    Tidies (reloadRevs inputs done revs : Program (App κ ω) Exn Unit) := by
  induction revs generalizing done with
  | nil => exact .pure ()
  | cons rev revs ih =>
      exact (inRepo_tidies _).bind fun _ => .bind (.update fun _ => ⟨fun h => h, Or.inl rfl⟩) fun _ => ih _

theorem reloadHead_tidies : Tidies (reloadHead inputs : Program (App κ ω) Exn Unit) := by
  refine read_tidies.bind fun app => ?_
  cases app.head with
  | none => exact .pure ()
  | some head => exact (inRepo_tidies _).bind fun _ => .update fun _ => ⟨fun h => h, Or.inl rfl⟩

theorem gitDetachHeadIfEqual_tidies (ref : Ref) :
    Tidies (gitDetachHeadIfEqual inputs ref : Program (App κ ω) Exn Bool) := by
  refine read_tidies.bind fun app => ?_
  split
  · exact Program.Keeps.pure false
  · cases app.headReattach with
    | true => exact Program.Keeps.pure true
    | false =>
        exact .bind (.update fun _ => ⟨fun h => h, Or.inl rfl⟩) fun _ => (inRepo_tidies _).bind fun _ => .pure true

theorem gitRefReplace_tidies (ref : Ref) (commit : Commit) : Tidies (gitRefReplace env inputs ref commit) :=
  (gitDetachHeadIfEqual_tidies inputs ref).bind fun _ => inRepo_tidies _

theorem repoStateRefReplace_tidies (refPrev ref : Ref) :
    Tidies (repoStateRefReplace refPrev ref : Program (App κ ω) Exn Unit) := by
  refine read_tidies.bind fun app => ?_
  split
  · exact .fail _
  · cases State.refReplace app.repoState refPrev.fullName ref.fullName with
    | none => exact .fail _
    | some repoState => exact .update fun _ => ⟨fun h => h, Or.inl rfl⟩

theorem gitRefRename_tidies (refPrev : Ref) (name : Bytes) :
    Tidies (gitRefRename env inputs refPrev name) := by
  refine (inRepo_tidies _).bind fun ref => .bind (.update fun _ => ⟨fun h => h, Or.inl rfl⟩) fun _ =>
    (repoStateRefReplace_tidies refPrev ref).bind fun _ =>
      (gitDetachHeadIfEqual_tidies inputs refPrev).bind fun wasHead => ?_
  have hrest : Tidies (do
      Program.update fun app => { app with selection := selectionRenamed refPrev ref app.selection }
      inRepo (reflogRememberRef inputs.fault ref)
      inRepo (refDelete inputs.fault refPrev)
      pure ref : Program (App κ ω) Exn Ref) := by
    refine .bind (.update fun app => ⟨fun howned hcommits => ?_, Or.inl rfl⟩) fun _ =>
      (inRepo_tidies _).bind fun _ => (inRepo_tidies _).bind fun _ => .pure ref
    show (selectionRenamed refPrev ref app.selection).rev.isSome
    rw [selectionRenamed, Option.isSome_map]
    exact howned hcommits
  cases wasHead with
  | true => exact .bind (.update fun _ => ⟨fun h => h, Or.inl rfl⟩) fun _ => hrest
  | false => exact hrest

theorem gitRefDelete_tidies (ref : Ref) :
    Tidies (gitRefDelete inputs ref : Program (App κ ω) Exn Unit) := by
  refine .bind (.update fun _ => ⟨fun h => h, Or.inl rfl⟩) fun _ =>
    (gitDetachHeadIfEqual_tidies inputs ref).bind fun wasHead => ?_
  have hrest : Tidies (do
      Program.update fun app => { app with selection := selectionDeleted ref app.selection }
      inRepo (refDelete inputs.fault ref) : Program (App κ ω) Exn Unit) := by
    refine .bind (.update fun app => ⟨fun howned => ?_, Or.inl rfl⟩) fun _ => inRepo_tidies _
    show Owned (selectionDeleted ref app.selection)
    unfold selectionDeleted
    split
    · exact owned_empty none
    · exact howned
  cases wasHead with
  | true => exact .bind (.update fun _ => ⟨fun h => h, Or.inl rfl⟩) fun _ => hrest
  | false => exact hrest

theorem refStateRestore_tidies (refPrev : Ref) (refState : State.RefState κ) :
    Tidies (refStateRestore env inputs refPrev refState) := by
  have hlookup : Tidies (headLookup env inputs refState.head) := by
    refine .handle ((call_tidies inputs.fault .commitLookup).bind fun _ => ?_) fun _ => .fail _
    cases env.ids.commit refState.head with
    | none => exact .fail _
    | some commit => exact .pure _
  refine hlookup.bind fun commit => ?_
  have hrename (ref : Ref) : Tidies (if ref.name ≠ refState.name then
      gitRefRename env inputs ref refState.name else pure ref) := by
    split
    · exact gitRefRename_tidies env inputs ref refState.name
    · exact .pure ref
  split
  · exact (gitRefReplace_tidies env inputs refPrev commit).bind hrename
  · exact hrename refPrev

theorem selectionLookup_tidies (selection : Finset κ) :
    Tidies (selectionLookup env inputs selection) := by
  unfold selectionLookup
  dsimp only
  split
  · exact .pure _
  · exact .fail _

theorem revReplace_tidies (rev : Rev) (ref : Ref) (commit : Option Commit) :
    Tidies (Modify.revReplace (gitCtx env inputs) rev ref commit) := by
  cases commit with
  | none => exact .fail _
  | some commit =>
      exact (gitRefReplace_tidies env inputs ref commit).bind fun _ =>
        (call_tidies _ _).bind fun _ => .pure _

/-- The result of an operation has the rev of its source. -/
theorem replacing_tidies {op : Modify.Op} {x : Program (App κ ω) Exn (Option Modify.OpResult)}
    (h : Modify.Replacing (gitCtx env inputs) op x) (app : App κ ω) :
    Program.Ends x app (fun result app' => KeepsTidy app app' ∧ ∀ r ∈ result, r.src.rev.isSome)
      fun _ app' => KeepsTidy app app' := by
  cases h with
  | src commit hrev href htargets hsrc hdst hopDst =>
      refine .bind (((revReplace_tidies env inputs _ _ commit).ends app).mono
        (fun r app' h => .pure ⟨h, ?_⟩) fun _ _ h => h)
      rintro _ ⟨⟩
      rw [hsrc]
      rfl
  | dst commit hopSrc hrev href htargets hsrc hdst =>
      refine .bind (((revReplace_tidies env inputs _ _ commit).ends app).mono
        (fun r app' h => .pure ⟨h, ?_⟩) fun _ _ h => h)
      rintro _ ⟨⟩
      rw [hsrc]
      rfl
  | both srcCommit dstCommit hopSrc hopDst hsrcRef hdstRef hne htargets hsrc hdst =>
      refine .bind (((revReplace_tidies env inputs _ _ _).ends app).mono
        (fun r app₁ h => .bind ?_) fun _ _ h => h)
      refine ((revReplace_tidies env inputs _ _ _).ends app₁).mono
        (fun r' app' h' => .pure ⟨trans_of KeepsTidy h h', ?_⟩) fun _ _ h' => trans_of KeepsTidy h h'
      rintro _ ⟨⟩
      rw [hsrc]
      rfl

theorem exec_tidies (op : Modify.Op) (app : App κ ω) :
    Program.Ends (Modify.exec (gitCtx env inputs) op) app
      (fun result app' => KeepsTidy app app' ∧ ∀ r ∈ result, r.src.rev.isSome)
      fun _ app' => KeepsTidy app app' := by
  have hout {app app' : App κ ω} (h : OnlyOutside app app') : KeepsTidy app app' := by
    rw [show app' = _ from h]
    exact ⟨fun h => h, Or.inl rfl⟩
  have hdispatch : Program.Ends (Modify.dispatch (gitCtx env inputs) op) app
      (fun result app' => KeepsTidy app app' ∧ ∀ r ∈ result, r.src.rev.isSome)
      fun _ app' => KeepsTidy app app' := by
    rcases Modify.prepares_dispatch gitCtx_quiet op app with ⟨hkept, hnone⟩ |
      ⟨app₁, x, hx, hkept, hrun⟩
    · unfold Program.Ends
      rcases hrun : Modify.dispatch (gitCtx env inputs) op app with ⟨e | result, app'⟩
      · rw [hrun] at hkept
        exact hout hkept
      · rw [hrun] at hkept hnone
        refine ⟨hout hkept, ?_⟩
        rintro r ⟨⟩
        cases hnone
    · have hends := replacing_tidies env inputs hx app₁
      unfold Program.Ends at hends ⊢
      rw [hrun]
      rcases hx' : x app₁ with ⟨e | result, app'⟩
      · rw [hx'] at hends
        exact trans_of KeepsTidy (hout hkept) hends
      · rw [hx'] at hends
        exact ⟨trans_of KeepsTidy (hout hkept) hends.1, hends.2⟩
  refine .handle (hdispatch.mono (fun _ _ h => h) fun e app' h => ?_)
  split
  · exact .pure ⟨h, fun r hr => nomatch hr⟩
  · exact .fail h

end Refs

section Actions

variable [DecidableEq κ] (env : Env κ ω) (inputs : Inputs κ)

theorem loadRef_tidies (ref : Ref) : Tidies (loadRef env inputs ref) :=
  read_tidies.bind fun _ => .bind (.update fun _ => ⟨fun h => h, Or.inl rfl⟩) fun _ => .pure _

theorem historyPush_tidies (ref : Ref) (refState : State.HistoryRefState κ) :
    Tidies (historyPush env inputs ref refState) :=
  (loadRef_tidies env inputs ref).bind fun _ => setLoaded_tidies _ _

theorem snapshotInitialPush_tidies (ref : Ref) : Tidies (snapshotInitialPush env inputs ref) :=
  (loadRef_tidies env inputs ref).bind fun _ => setLoaded_tidies _ _

theorem selection_reloadColumns (revs : List Rev) (offX : Int) (count : Nat) (app : App κ ω) :
    (reloadColumns env inputs revs offX count app).selection = app.selection := by
  induction revs generalizing offX count app with
  | nil => rfl
  | cons rev revs ih =>
      have hload : (app.loadRev env inputs rev).selection = app.selection := by
        unfold loadRev
        split <;> rfl
      rw [reloadColumns]
      dsimp only
      split
      · exact hload
      · rw [ih]
        exact hload

/-- The columns that were made, and those that are made, stand side by side and are of the same
height. -/
theorem reloadColumns_aligned (revs : List Rev) {offX : Int} {count : Nat} {app : App κ ω}
    (hoffX : offX = columnX count) (hcount : count ≤ app.columns.length)
    (hdone : AlignedOn env.height app.size.y (app.columns.take count)) :
    AlignedOn env.height app.size.y (reloadColumns env inputs revs offX count app).columns := by
  induction revs generalizing offX count app with
  | nil => exact hdone
  | cons rev revs ih =>
      have hload : (app.loadRev env inputs rev).columns = app.columns ∧
          (app.loadRev env inputs rev).size = app.size := by
        unfold loadRev
        split
        · exact ⟨rfl, rfl⟩
        · exact ⟨rfl, rfl⟩
      obtain ⟨hcolumns, hsize⟩ := hload
      rw [reloadColumns]
      dsimp only
      generalize app.loadRev env inputs rev = loaded at hcolumns hsize ⊢
      rw [← hcolumns] at hcount hdone
      rw [← hsize] at hdone ⊢
      have hlength : (loaded.columns.take count).length = count := List.length_take_of_le hcount
      split
      · exact hdone
      · refine ih ?_ ?_ fun i col hcol => ?_
        · rw [hoffX, columnX, columnX]
          unfold columnWidth columnSpacing
          omega
        · show count + 1 ≤ (loaded.columns.take count ++ _ :: _).length
          rw [List.length_append, List.length_cons, hlength]
          omega
        · have hmade : ∀ x : Ui.RevColumn, (loaded.columns.take count ++ x ::
              loaded.columns.drop (count + 1)).take (count + 1) = loaded.columns.take count ++ [x] := by
            intro x
            rw [List.take_append, List.take_of_length_le (by omega), hlength,
              show count + 1 - count = 1 by omega]
            rfl
          change (List.take (count + 1) _)[i]? = some col at hcol
          rw [hmade] at hcol
          rcases Nat.lt_or_ge i count with hi | hi
          · rw [List.getElem?_append_left (by omega)] at hcol
            exact hdone i col hcol
          · rw [List.getElem?_append_right (by omega), hlength] at hcol
            obtain ⟨hlt, hcol⟩ := List.getElem?_eq_some_iff.mp hcol
            obtain rfl : i = count := by
              rw [List.length_singleton] at hlt
              omega
            rw [List.getElem_singleton] at hcol
            rw [← hcol, ← hoffX]
            exact ⟨rfl, Ui.panels_reload env.height _⟩

theorem reload_tidies : Tidies (reload env inputs) := by
  refine (reloadHead_tidies inputs).bind fun _ => read_tidies.bind fun app =>
    (reloadRevs_tidies inputs _ _).bind fun _ => .update fun app => ⟨fun howned => ?_, Or.inr ?_⟩
  · show Owned (reloadColumns env inputs _ _ _ _).selection
    rw [selection_reloadColumns]
    exact howned
  · exact ⟨env.height, app.size.y, reloadColumns_aligned env inputs app.revs rfl (Nat.zero_le _)
      fun i col hcol => by simp at hcol⟩

theorem undoRedo_tidies (rev : Rev) (undo : Bool) : Tidies (undoRedo env inputs rev undo) := by
  unfold undoRedo
  cases rev.ref with
  | none => exact .fail _
  | some ref =>
      refine (loadRef_tidies env inputs ref).bind fun lref => ?_
      have hbody (refState : State.HistoryRefState κ) :
          Tidies (undoRedoBody env inputs rev ref undo lref.history.current refState) := by
        unfold undoRedoBody
        refine (refStateRestore_tidies env inputs _ _).bind fun ref => ?_
        refine (selectionLookup_tidies env inputs _).bind fun selection =>
          .bind (.update fun _ => ⟨fun _ => owned_some _ _, Or.inl rfl⟩) fun _ =>
            (loadRef_tidies env inputs ref).bind fun lref => ?_
        cases (if undo then lref.history.prev else lref.history.next) with
        | none => exact .bind (.fail _) fun _ => snapshotInitialPush_tidies env inputs ref
        | some h => exact (setLoaded_tidies _ _).bind fun _ => snapshotInitialPush_tidies env inputs ref
      cases (if undo then lref.history.prevPeek else lref.history.nextPeek) with
      | none => exact .bind (.fail _) fun _ => reload_tidies env inputs
      | some refState =>
          refine .bind ((hbody refState).handle fun e => ?_) fun _ => reload_tidies env inputs
          split
          · exact .fail _
          · split
            · exact .fail _
            · exact .fail _

theorem snapshotRestore_tidies (ref : Ref) (choice : Option Nat) :
    Tidies (snapshotRestore env inputs ref choice) := by
  refine (loadRef_tidies env inputs ref).bind fun lref => ?_
  cases snapshotChosen lref choice with
  | none => exact .pure ()
  | some snapshot =>
      dsimp only
      split
      · exact .pure ()
      · exact (refStateRestore_tidies env inputs ref snapshot.refState).bind fun ref =>
          (historyPush_tidies env inputs ref _).bind fun _ =>
            (snapshotInitialPush_tidies env inputs ref).bind fun _ =>
              .bind (.update fun _ => ⟨fun _ => owned_empty none, Or.inl rfl⟩) fun _ => reload_tidies env inputs

theorem refRename_tidies (ref : Ref) (name : Bytes) : Tidies (refRename env inputs ref name) :=
  (gitRefRename_tidies env inputs ref name).bind fun ref =>
    (historyPush_tidies env inputs ref _).bind fun _ =>
      (snapshotInitialPush_tidies env inputs ref).bind fun _ => reload_tidies env inputs

theorem refRemove_tidies (ref : Ref) : Tidies (refRemove env inputs ref) :=
  (gitRefDelete_tidies inputs ref).bind fun _ => reload_tidies env inputs

theorem revCreateEnd_tidies (x : Program Repository Exn Ref) (template : Rev) (commit : Commit) :
    Tidies (revCreateEnd env inputs x template commit) := by
  refine (inRepo_tidies x).bind fun ref => (inRepo_tidies _).bind fun _ => read_tidies.bind fun app => ?_
  split
  · exact .fail _
  · exact .bind (.update fun _ => ⟨fun _ => owned_some _ _, Or.inl rfl⟩) fun _ => reload_tidies env inputs

theorem revCreate_tidies (branch : Bool) (template : Rev) (commit : Commit) :
    Tidies (revCreate env inputs branch template commit) := by
  intro app
  refine Program.Ends.state (revCreate_ends (refl_of KeepsTidy app) (fun ref => ?_) fun x _ =>
    (revCreateEnd_tidies env inputs x template commit).ends app)
  refine .zoom ((branchNameLocal_ends ref).mono ?_ ?_)
  · rintro _ repo rfl
    rfl
  · exact fun _ _ _ => ⟨fun h => h, Or.inl rfl⟩

theorem opPush_tidies (revPrev : Option Rev) (res : Modify.Res) :
    Tidies (opPush env inputs revPrev res) := by
  unfold opPush
  split
  · exact .pure ()
  · refine (loadRef_tidies env inputs _).bind fun _ => ?_
    split
    · exact .pure ()
    · exact (historyPush_tidies env inputs _ _).bind fun _ => snapshotInitialPush_tidies env inputs _

theorem gitOpExec_tidies (op : Modify.Op) : Tidies (gitOpExec env inputs op) := by
  intro app
  have hexec := exec_tidies env inputs op app
  unfold gitOpExec
  rcases hrun : Modify.exec (gitCtx env inputs) op app with ⟨e | result, app₁⟩
  · rw [Program.bind_run_error hrun]
    exact hexec.of_error hrun
  · rw [Program.bind_run_ok hrun]
    obtain ⟨hkept, hsrc⟩ := hexec.of_ok hrun
    refine trans_of KeepsTidy hkept ?_
    cases result with
    | none => exact refl_of KeepsTidy _
    | some result =>
        dsimp only
        split
        · exact refl_of KeepsTidy _
        · have howned : Owned (if result.dst.rev.isSome then ⟨result.dst.rev, result.dst.selection⟩
              else ⟨result.src.rev, result.src.selection⟩) := by
            split
            · next hdst => exact fun _ => hdst
            · exact fun _ => hsrc result rfl
          refine ((opPush_tidies env inputs _ _).bind fun _ => (opPush_tidies env inputs _ _).bind fun _ =>
            .bind (.update fun app => ?_) fun _ => reload_tidies env inputs) app₁
          exact ⟨fun _ => howned, Or.inl rfl⟩

omit [DecidableEq κ] in
theorem owned_selectionSelected {app : App κ ω} (h : Owned app.selection) {new : Ui.Selection}
    (hnew : Owned new) (shift : Bool) : Owned (app.selectionSelected new shift) := by
  unfold selectionSelected
  split
  · next hshift =>
      intro hcommits
      by_cases hnone : app.selection.commits = ∅
      · rw [hnone] at hcommits
        have hsome : new.commits ≠ ∅ := by
          rintro hempty
          rw [hempty] at hcommits
          exact hcommits (symmDiff_self ∅)
        have hsame := (Bool.and_eq_true_iff.mp hshift).2
        rw [decide_eq_false hsome, Bool.false_or] at hsame
        have hrev := hnew hsome
        obtain ⟨rev, hrev⟩ := Option.isSome_iff_exists.mp hrev
        rw [hrev] at hsame
        cases hold : app.selection.rev with
        | none =>
            rw [hold] at hsame
            cases hsame
        | some rev => rfl
      · exact h hnone
  · exact hnew

omit [DecidableEq κ] in
theorem withRev_tidies {α : Type} (rev : Option α) {f : α → Program (App κ ω) Exn Unit}
    (hf : ∀ a, Tidies (f a)) : Tidies (withRev rev f) := by
  cases rev with
  | none => exact .fail _
  | some a => exact hf a

/-- What an action leaves is a selection that has a rev. -/
theorem perform_tidies {action : Action} {app : App κ ω} (hoffers : app.offers action = true) :
    KeepsTidy app (perform env inputs action app).2 := by
  unfold perform
  rw [Program.bind_run_ok (Program.read_run app)]
  cases action with
  | resize size =>
      have hsize : Tidies (Program.update fun app : App κ ω => { app with size := size }) :=
        .update fun _ => ⟨fun h => h, Or.inl rfl⟩
      exact (hsize.bind fun _ => reload_tidies env inputs) app
  | select i commits shift =>
      refine ⟨fun howned => owned_selectionSelected howned (fun _ => ?_) shift, Or.inl rfl⟩
      have hcol := (Bool.and_eq_true_iff.mp hoffers).2
      show (app.colRev i).isSome
      unfold colRev
      cases hget : app.columns[i]? with
      | none =>
          rw [hget] at hcol
          cases hcol
      | some col => rfl
  | deselect => exact ⟨fun _ => owned_empty none, Or.inl rfl⟩
  | drop i position copy => exact gitOpExec_tidies env inputs _ app
  | deleteCommits => exact gitOpExec_tidies env inputs _ app
  | combine => exact gitOpExec_tidies env inputs _ app
  | edit => exact gitOpExec_tidies env inputs _ app
  | undo i => exact withRev_tidies _ (fun rev => undoRedo_tidies env inputs rev true) app
  | redo i => exact withRev_tidies _ (fun rev => undoRedo_tidies env inputs rev false) app
  | restore i snapshot => exact withRev_tidies _ (fun ref => snapshotRestore_tidies env inputs ref snapshot) app
  | rename i name => exact withRev_tidies _ (fun ref => refRename_tidies env inputs ref name) app
  | remove i => exact withRev_tidies _ (fun ref => refRemove_tidies env inputs ref) app
  | duplicate i => exact withRev_tidies _ (fun rev => revCreate_tidies env inputs false rev rev.commit) app
  | branch col =>
      exact withRev_tidies _ (fun rev => withRev_tidies _ fun commit =>
        revCreate_tidies env inputs true rev commit) app

end Actions


end App
end Debase
