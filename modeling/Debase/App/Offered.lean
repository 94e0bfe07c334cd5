import Debase.App.GestureRuns

/-!
# What is read leads to what is offered

The runs of a session are made of actions that are offered (`App.offers`).  Here the events are
below them: `handleEvent` reads on while it drags, selects or tracks a menu, and whatever it reads,
the application is then in a state that offered actions lead to.  So what holds in every state of a
session holds however the mouse and the keys are used.
-/

namespace Debase

open Git Library
open Ui (ScreenEvent)

namespace App

variable {κ ω : Type}

/-! ## Columns and revs -/

theorem isMutable_of_same {a b : Rev} (h : a.same b = true) : a.isMutable = b.isMutable := by
  unfold Rev.same at h
  simp only [Bool.and_eq_true, decide_eq_true_eq] at h
  obtain ⟨⟨⟨-, href⟩, -⟩, hmutability⟩ := h
  have hname : a.ref.map Ref.fullName = b.ref.map Ref.fullName := of_decide_eq_true href
  have hgit : a.toGitRev.isMutable = b.toGitRev.isMutable := by
    unfold GitRev.isMutable
    cases ha : a.ref with
    | none =>
        rw [ha] at hname
        rw [Option.map_eq_none_iff.mp hname.symm]
    | some ref =>
        rw [ha] at hname
        obtain ⟨ref', hb, hsame⟩ := Option.map_eq_some_iff.mp hname.symm
        rw [hb]
        simp only [Ref.isLocalBranch, Ref.isTag, hsame]
  unfold Rev.isMutable
  rw [hmutability, hgit]

section HitTest

variable {height : Commit → Int} {app : App κ ω} {p : Ui.Point} {i : Nat} {panel : Commit}

theorem hitTestCommit_mem {col : Ui.RevColumn} (h : hitTestCommit height col p = some panel) :
    panel ∈ col.panels := by
  obtain ⟨⟨commit, frame⟩, hfound, rfl⟩ := Option.map_eq_some_iff.mp h
  exact (List.of_mem_zip (List.mem_of_find?_eq_some hfound)).1

theorem hitTestLoop_panel {columns : List Ui.RevColumn} {k : Nat}
    (h : hitTestLoop height p k columns = some (.panel i panel)) :
    ∃ j col, i = k + j ∧ columns[j]? = some col ∧ panel ∈ col.panels := by
  induction columns generalizing k with
  | nil => cases h
  | cons col columns ih =>
      rw [hitTestLoop] at h
      split at h
      · cases h
      · split at h
        · next found hfound =>
            cases h
            exact ⟨0, col, rfl, rfl, hitTestCommit_mem hfound⟩
        · obtain ⟨j, col', rfl, hget, hmem⟩ := ih h
          exact ⟨j + 1, col', by omega, hget, hmem⟩

/-- The mouse is on a panel of a column that is shown. -/
theorem hitTest_panel (h : app.hitTest height p = some (.panel i panel)) :
    ∃ col, app.columns[i]? = some col ∧ panel ∈ col.panels := by
  obtain ⟨j, col, rfl, hget, hmem⟩ := hitTestLoop_panel h
  exact ⟨col, by rwa [Nat.zero_add], hmem⟩

/-- Commits are inserted in a column that is shown and may be changed. -/
theorem findInsertionPosition_some {ipos : Ui.InsertionPosition}
    (h : app.findInsertionPosition height p = some ipos) :
    (∃ i : Nat, app.columns[i]? = some ipos.col) ∧ ipos.col.rev.isMutable = true := by
  unfold findInsertionPosition at h
  split at h
  · cases h
  · next b hnearest =>
      split at h
      · cases h
      · next hmutable =>
          cases h
          obtain ⟨-, -, hnone | ⟨q, hq, -⟩⟩ := Ui.foldl_nearer p _ hnearest
          · cases hnone
          · obtain ⟨col, hcol, hgap⟩ := List.mem_flatMap.mp hq
            obtain ⟨hsame, -, -⟩ := Ui.mem_gaps hgap
            refine ⟨List.getElem?_of_mem (hsame ▸ hcol), ?_⟩
            rwa [Bool.not_eq_true, Bool.not_eq_false'] at hmutable

end HitTest

/-- A column whose rev may be changed has a ref. -/
theorem colRef_isSome {app : App κ ω} {i : Nat} {col : Ui.RevColumn}
    (hcol : app.columns[i]? = some col) (hmutable : col.rev.isMutable = true) :
    ∃ ref, col.rev.ref = some ref ∧ app.colRef i = some ref := by
  have hrev : app.colRev i = some col.rev := by rw [colRev, hcol, Option.map_some]
  have hgit := (Bool.and_eq_true_iff.mp hmutable).2
  unfold GitRev.isMutable at hgit
  cases href : col.rev.ref with
  | none =>
      rw [href] at hgit
      cases hgit
  | some ref =>
      refine ⟨ref, rfl, ?_⟩
      rw [colRef, hrev]
      show (if col.rev.isMutable then col.rev.ref else none) = some ref
      rw [if_pos hmutable, href]

/-! ## What is selected -/

theorem Gui.touched_subset (height : Commit → Int) (r : Ui.Rect) (col : Ui.RevColumn) :
    ∀ c ∈ Gui.touched height r col, c ∈ col.panels := by
  intro c hc
  obtain ⟨⟨commit, frame⟩, hmem, rfl⟩ := List.mem_map.mp (List.mem_toFinset.mp hc)
  exact (List.of_mem_zip (List.mem_filter.mp hmem).1).1

/-- A rectangle touches no column, or it selects in the first one that it touches. -/
theorem Gui.selectionTouched_cases (height : Commit → Int) (r : Ui.Rect)
    (columns : List Ui.RevColumn) :
    (Gui.selectionTouched height r columns = ⟨none, ∅⟩ ∧
        ∀ col ∈ columns, Gui.touched height r col = ∅) ∨
      ∃ (i : Nat) (col : Ui.RevColumn), columns[i]? = some col ∧ Gui.touched height r col ≠ ∅ ∧
        Gui.selectionTouched height r columns = ⟨some col.rev, Gui.touched height r col⟩ ∧
          ∀ (j : Nat) (left : Ui.RevColumn), j < i → columns[j]? = some left →
            Gui.touched height r left = ∅ := by
  induction columns with
  | nil => exact Or.inl ⟨rfl, fun _ hno => (by cases hno)⟩
  | cons col columns ih =>
      rw [Gui.selectionTouched]
      by_cases hempty : Gui.touched height r col ≠ ∅
      · rw [if_pos hempty]
        exact Or.inr ⟨0, col, rfl, hempty, rfl, fun j _ hj => absurd hj (Nat.not_lt_zero j)⟩
      · rw [if_neg hempty]
        have hempty := not_ne_iff.mp hempty
        rcases ih with ⟨hnone, hall⟩ | ⟨i, found, hget, hne, heq, hleft⟩
        · exact Or.inl ⟨hnone, List.forall_mem_cons.mpr ⟨hempty, hall⟩⟩
        · refine Or.inr ⟨i + 1, found, hget, hne, heq, fun j left hj hj' => ?_⟩
          cases j with
          | zero =>
              cases hj'
              exact hempty
          | succ j => exact hleft j left (Nat.lt_of_succ_lt_succ hj) hj'

section Actions

variable [DecidableEq κ] (env : GuiEnv κ ω) (inputs : Inputs κ)

/-- Actions that are offered one after the other lead there. -/
def Arrives (app app' : App κ ω) : Prop :=
  ∃ actions : List Action, run (step env.toEnv) app (actions.map fun a => (a, inputs)) = some app'

instance : Std.Refl (Arrives env inputs) := ⟨fun _ => ⟨[], rfl⟩⟩

instance : IsTrans (App κ ω) (Arrives env inputs) where
  trans := by
    rintro _ _ _ ⟨actions, hrun⟩ ⟨actions', hrun'⟩
    refine ⟨actions ++ actions', ?_⟩
    rw [List.map_append, Run.append, hrun]
    exact hrun'

variable {env inputs} {app app' : App κ ω}

theorem Arrives.perform {action : Action} (h : app.offers action = true) :
    Arrives env inputs app (App.perform env.toEnv inputs action app).2 := by
  refine ⟨[action], ?_⟩
  show (step env.toEnv app (action, inputs)).bind _ = _
  rw [step, if_pos h]
  rfl

/-- Commits of a column that is shown can be selected. -/
theorem Arrives.select {i : Nat} {col : Ui.RevColumn} (hcol : app.columns[i]? = some col)
    {commits : Finset Commit} (hnonempty : commits ≠ ∅) (hpanels : ∀ c ∈ commits, c ∈ col.panels)
    (shift : Bool) : Arrives env inputs app
      { app with selection := app.selectionSelected ⟨some col.rev, commits⟩ shift } := by
  have hoffers : app.offers (.select i commits shift) = true := by
    show (decide (commits ≠ ∅) && (app.columns[i]?).any _) = true
    rw [hcol, Option.any_some, Bool.and_eq_true_iff]
    exact ⟨decide_eq_true hnonempty, decide_eq_true hpanels⟩
  have hperforms : Arrives env inputs app
      (App.perform env.toEnv inputs (.select i commits shift) app).2 := Arrives.perform hoffers
  have hrev : app.colRev i = some col.rev := by rw [colRev, hcol, Option.map_some]
  rw [← hrev]
  exact hperforms

theorem Arrives.select_one {i : Nat} {col : Ui.RevColumn} (hcol : app.columns[i]? = some col)
    {panel : Commit} (hpanel : panel ∈ col.panels) :
    Arrives env inputs app { app with selection := ⟨some col.rev, {panel}⟩ } := by
  refine Arrives.select hcol (Finset.singleton_ne_empty panel) (fun c hc => ?_) false
  rwa [Finset.mem_singleton.mp hc]

theorem Arrives.deselect : Arrives env inputs app { app with selection := ⟨none, ∅⟩ } :=
  Arrives.perform (show app.offers .deselect = true from rfl)

/-- Whatever a rectangle touches can be selected. -/
theorem Arrives.touch (height : Commit → Int) (r : Ui.Rect) (shift : Bool) :
    Arrives env inputs app
      { app with
        selection := app.selectionSelected (Gui.selectionTouched height r app.columns) shift } := by
  rcases Gui.selectionTouched_cases height r app.columns with ⟨hnone, -⟩ |
    ⟨i, col, hget, hne, heq, -⟩
  · rw [hnone]
    cases shift with
    | false => exact Arrives.deselect
    | true =>
        -- nothing is touched, and what was selected stays
        have hstays : app.selectionSelected ⟨none, ∅⟩ true = app.selection := by
          unfold selectionSelected
          rw [if_pos (by rfl)]
          show (⟨app.selection.rev, symmDiff app.selection.commits ∅⟩ : Ui.Selection) = app.selection
          rw [show symmDiff app.selection.commits ∅ = app.selection.commits from symmDiff_bot _]
        rw [hstays]
        exact refl_of (Arrives env inputs) app
  · rw [heq]
    exact Arrives.select hget hne (Gui.touched_subset height r col) shift

/-- An operation that is offered. -/
def Offered (app : App κ ω) (op : Modify.Op) : Prop :=
  ∃ action, app.offers action = true ∧ app.opOf action = some op

theorem perform_opOf {action : Action} {op : Modify.Op} (hop : app.opOf action = some op) :
    App.perform env.toEnv inputs action app = gitOpExec env.toEnv inputs op app := by
  cases action with
  | drop i position copy =>
      cases hop
      rfl
  | deleteCommits =>
      cases hop
      rfl
  | combine =>
      cases hop
      rfl
  | edit =>
      cases hop
      rfl
  | resize => cases hop
  | select => cases hop
  | deselect => cases hop
  | undo => cases hop
  | redo => cases hop
  | restore => cases hop
  | rename => cases hop
  | remove => cases hop
  | duplicate => cases hop
  | branch => cases hop

end Actions

/-! ## What the keys and the context menu ask for -/

section Can

variable (app : App κ ω)

theorem offers_edit : app.offers .edit = app.selectionCanEdit := by
  show (app.selectionIsMutable && decide (app.selection.commits.card = 1)) =
    (decide (app.selection.commits ≠ ∅) && app.selectionIsMutable &&
      decide (app.selection.commits.card = 1))
  by_cases hone : app.selection.commits.card = 1
  · have hsome : app.selection.commits ≠ ∅ := by
      rintro hnone
      rw [hnone] at hone
      cases hone
    rw [decide_eq_true hsome, Bool.true_and]
  · rw [decide_eq_false hone, Bool.and_false, Bool.and_false]

theorem offers_combine : app.offers .combine = app.selectionCanCombine := by
  show (app.selectionIsMutable && decide (1 < app.selection.commits.card) && _) =
    (decide (app.selection.commits ≠ ∅) && app.selectionIsMutable &&
      decide (1 < app.selection.commits.card) && _)
  by_cases hseveral : 1 < app.selection.commits.card
  · have hsome : app.selection.commits ≠ ∅ := by
      rintro hnone
      rw [hnone] at hseveral
      cases hseveral
    rw [decide_eq_true hsome, Bool.true_and]
  · rw [decide_eq_false hseveral, Bool.and_false, Bool.and_false]

variable {app}

theorem offered_edit (h : app.selectionCanEdit = true) : Offered app (app.selectionOp .edit) :=
  ⟨.edit, (offers_edit app).trans h, rfl⟩

theorem offered_delete (h : app.selectionCanDelete = true) : Offered app (app.selectionOp .delete) :=
  ⟨.deleteCommits, h, rfl⟩

theorem offered_combine (h : app.selectionCanCombine = true) :
    Offered app (app.selectionOp .combine) :=
  ⟨.combine, (offers_combine app).trans h, rfl⟩

end Can

/-! ## The gestures -/

namespace Gui

variable [DecidableEq κ] (env : GuiEnv κ ω) (inputs : Inputs κ)

/-- However a program of the user interface ends, offered actions lead to the application as it is
then. -/
def Leads {α : Type} (x : Program (Gui κ ω) Stop α) (g : Gui κ ω) : Prop :=
  Program.Ends x g (fun _ g' => App.Arrives env inputs g.app g'.app)
    fun _ g' => App.Arrives env inputs g.app g'.app

/-- The same, and the operation that is returned is offered then. -/
def LeadsToOp (x : Program (Gui κ ω) Stop (Option Modify.Op)) (g : Gui κ ω) : Prop :=
  Program.Ends x g
    (fun op g' => App.Arrives env inputs g.app g'.app ∧ ∀ o ∈ op, Offered g'.app o)
    fun _ g' => App.Arrives env inputs g.app g'.app

variable {env inputs} {g : Gui κ ω}

theorem leads_inApp {x : Program (App κ ω) Exn Unit} (action : Action)
    (h : g.app.offers action = true) (hx : x g.app = App.perform env.toEnv inputs action g.app) :
    Leads env inputs (inApp x) g := by
  have harrives : App.Arrives env inputs g.app (App.perform env.toEnv inputs action g.app).2 :=
    App.Arrives.perform h
  rw [← hx] at harrives
  unfold Leads Program.Ends inApp
  rcases hrun : x g.app with ⟨e | u, app⟩
  · rw [hrun] at harrives
    exact harrives
  · rw [hrun] at harrives
    exact harrives

/-- An operation that is offered is carried out. -/
theorem leads_execIf {op : Option Modify.Op} (h : ∀ o ∈ op, Offered g.app o) :
    Leads env inputs (execIf env inputs op) g := by
  cases op with
  | none => exact .pure (refl_of (App.Arrives env inputs) g.app)
  | some op =>
      obtain ⟨action, hoffers, hop⟩ := h op rfl
      exact leads_inApp action hoffers (perform_opOf hop).symm

theorem leads_bind_execIf {x : Program (Gui κ ω) Stop (Option Modify.Op)}
    (h : LeadsToOp env inputs x g) : Leads env inputs (x >>= execIf env inputs) g := by
  refine .bind (h.mono (fun op g' hop => ?_) fun _ _ h => h)
  exact (leads_execIf hop.2).mono (fun _ _ h => trans_of (App.Arrives env inputs) hop.1 h)
    fun _ _ h => trans_of (App.Arrives env inputs) hop.1 h

/-! ### Dragging -/

section Drag

variable {mouseDownEvent : ScreenEvent} {col : Ui.RevColumn} {panel : Commit} {i : Nat}

omit [DecidableEq κ] in
/-- A press that selects nothing new leaves the selection. -/
theorem pressed_eq (app : App κ ω) (col : Ui.RevColumn) (panel : Commit) :
    pressed app col panel = ⟨some col.rev, {panel}⟩ ∨
      pressed app col panel = app.selection ∧ panel ∈ app.selection.commits := by
  unfold pressed
  split
  · exact Or.inl rfl
  · next hselected =>
      refine Or.inr ?_
      have hmem : panel ∈ app.selection.commits := by
        simp only [selected, Bool.or_eq_true, Bool.not_eq_true', Bool.and_eq_false_iff,
          decide_eq_false_iff_not, decide_eq_true_eq] at hselected
        by_contra hnot
        exact hselected (Or.inr (Or.inl hnot))
      exact ⟨by rw [Finset.insert_eq_self.mpr hmem], hmem⟩

omit [DecidableEq κ] in
theorem mem_pressed (app : App κ ω) (col : Ui.RevColumn) (panel : Commit) :
    panel ∈ (pressed app col panel).commits := by
  rcases pressed_eq app col panel with heq | ⟨heq, hmem⟩
  · rw [heq]
    exact Finset.mem_singleton_self panel
  · rwa [heq]

theorem arrives_pressed (hcol : g.app.columns[i]? = some col) (hpanel : panel ∈ col.panels) :
    App.Arrives env inputs g.app (pressedGui g col panel).app := by
  show App.Arrives env inputs g.app { g.app with selection := pressed g.app col panel }
  rcases pressed_eq g.app col panel with heq | ⟨heq, -⟩
  · rw [heq]
    exact App.Arrives.select_one hcol hpanel
  · rw [heq]
    exact refl_of (App.Arrives env inputs) g.app

omit [DecidableEq κ] in
/-- A drop where commits can be inserted is offered, if what is dragged may be moved or is copied. -/
theorem offered_dropOp {app : App κ ω} {height : Commit → Int} {p : Ui.Point} {copy : Bool}
    {ipos : Ui.InsertionPosition} (hcommits : app.selection.commits ≠ ∅)
    (hrev : app.selection.rev.isSome) (hcopy : copy = false → app.selectionIsMutable = true)
    (hipos : app.findInsertionPosition height p = some ipos) :
    Offered app (Ui.dropOp app.selection copy ipos) := by
  obtain ⟨⟨i, hget⟩, hmutable⟩ := findInsertionPosition_some hipos
  have hcol : app.colRev i = some ipos.col.rev := by rw [colRev, hget, Option.map_some]
  refine ⟨.drop i ipos.col.panels[ipos.iter]? copy, ?_, ?_⟩
  · obtain ⟨ref, -, hcolRef⟩ := colRef_isSome hget hmutable
    have href : (app.colRef i).isSome := by
      rw [hcolRef]
      rfl
    have hallowed : (copy || app.selectionIsMutable) = true := by
      cases copy with
      | false => exact hcopy rfl
      | true => rfl
    show (decide (app.selection.commits ≠ ∅) && app.selection.rev.isSome && (app.colRef i).isSome &&
      (copy || app.selectionIsMutable) && (app.columns[i]?).any _) = true
    rw [decide_eq_true hcommits, hrev, href, hallowed, hget]
    show (ipos.col.panels[ipos.iter]?).all _ = true
    cases hposition : ipos.col.panels[ipos.iter]? with
    | none => rfl
    | some c => exact decide_eq_true (List.mem_of_getElem? hposition)
  · show some (⟨_, _, ⟨app.colRev i, _⟩⟩ : Modify.Op) = _
    rw [hcol]
    rfl

theorem click_leadsToOp {prev : Option DoubleClickState} {ev : ScreenEvent}
    (hcol : g.app.columns[i]? = some col) (hpanel : panel ∈ col.panels) :
    LeadsToOp env inputs (click prev col panel ev) g := by
  unfold LeadsToOp Program.Ends
  rw [click_run]
  refine ⟨App.Arrives.select_one hcol hpanel, fun o ho => ?_⟩
  unfold clickOp at ho
  split at ho
  · next hclicked =>
      cases ho
      refine ⟨.edit, ?_, rfl⟩
      show (Option.any Rev.isMutable (some col.rev) && decide (({panel} : Finset Commit).card = 1)) =
        true
      rw [Option.any_some, (Bool.and_eq_true_iff.mp hclicked).2, Finset.card_singleton]
      rfl
  · cases ho

theorem dragOp_leadsToOp (prev : Option DoubleClickState) {dragging : Dragging}
    (hcol : g.app.columns[i]? = some col) (hpanel : panel ∈ col.panels)
    (hdrop : ∀ ipos, dragging.ipos = some ipos → g.drag.titlePanel.isSome →
      Offered g.app (Ui.dropOp g.app.selection g.drag.copy ipos)) :
    LeadsToOp env inputs (dragOp prev col panel dragging) g := by
  have hnothing : LeadsToOp env inputs (pure none) g :=
    .pure ⟨refl_of (App.Arrives env inputs) g.app, fun o ho => (nomatch ho)⟩
  refine .bind (.read ?_)
  split
  · exact hnothing
  · split
    · next titlePanel ipos hpanel hipos =>
        refine .pure ⟨refl_of (App.Arrives env inputs) g.app, fun o ho => ?_⟩
        cases ho
        exact hdrop ipos hipos (by rw [hpanel]; rfl)
    · split
      · exact click_leadsToOp hcol hpanel
      · exact hnothing

theorem dragEnd_leadsToOp (prev : Option DoubleClickState) {dragging : Dragging}
    (hcol : g.app.columns[i]? = some col) (hpanel : panel ∈ col.panels)
    (hdrop : ∀ ipos, dragging.ipos = some ipos → g.drag.titlePanel.isSome →
      Offered g.app (Ui.dropOp g.app.selection g.drag.copy ipos)) :
    LeadsToOp env inputs (dragEnd prev col panel dragging) g :=
  .bind ((dragOp_leadsToOp prev hcol hpanel hdrop).mono (fun _ _ h => .bind (.update (.pure h)))
    fun _ _ h => h)

/-- A press in a panel, until the mouse comes up or the press is interrupted. -/
theorem trackMouseInsideCommitPanel_leadsToOp (hcol : g.app.columns[i]? = some col)
    (hpanel : panel ∈ col.panels) :
    LeadsToOp env inputs (trackMouseInsideCommitPanel env mouseDownEvent col panel) g := by
  have hpressed : App.Arrives env inputs g.app (pressedGui g col panel).app :=
    arrives_pressed hcol hpanel
  unfold LeadsToOp Program.Ends
  rw [trackMouseInsideCommitPanel_run]
  cases hstart : dragStart g.app mouseDownEvent (pressed g.app col panel) with
  | none => exact hpressed
  | some start =>
      dsimp only
      have hloop := dragLoop_eq env start false mouseDownEvent g.inputs (pressedGui g col panel)
      obtain ⟨-, hrev, hsame⟩ := dragStart_some hstart
      rcases hend : (holding g.inputs).2 with _ | ⟨e | release, rest⟩
      · rw [hend] at hloop
        rw [Program.bind_run_error hloop]
        exact hpressed
      · rw [hend] at hloop
        rw [Program.bind_run_error hloop]
        exact hpressed
      · rw [hend] at hloop
        rw [Program.bind_run_ok hloop]
        refine Program.Ends.mono (dragEnd_leadsToOp g.doubleClickState hcol hpanel
            fun ipos hipos hdrag => ?_)
          (fun _ _ h => ⟨trans_of (App.Arrives env inputs) hpressed h.1, h.2⟩)
          fun _ _ h => trans_of (App.Arrives env inputs) hpressed h
        refine offered_dropOp (Finset.ne_empty_of_mem (mem_pressed g.app col panel)) hrev
          (fun hcopy => ?_) hipos
        rw [copy_dragTurns env _ start false mouseDownEvent _ hdrag, Bool.or_eq_false_iff,
          Bool.not_eq_false'] at hcopy
        show Option.any Rev.isMutable (pressed g.app col panel).rev = true
        obtain ⟨rev, hsome⟩ := Option.isSome_iff_exists.mp hrev
        rw [hsome] at hsame ⊢
        rw [Option.any_some, ← isMutable_of_same hsame, hcopy.2]

end Drag

/-! ### The rectangle -/

theorem trackSelectionRect_leads (ev : ScreenEvent) :
    Leads env inputs (trackSelectionRect env.height ev) g := by
  unfold Leads Program.Ends
  rw [trackSelectionRect_eq]
  have htouched : App.Arrives env inputs g.app
      { g.app with
        selection := selectedAt env.height g.app ev ((holding g.inputs).1.getLastD ev) } :=
    App.Arrives.touch env.height
      (selectionRectOf ev.mouse.origin ((holding g.inputs).1.getLastD ev).mouse.origin)
      ev.selectionShiftKeys
  rcases (holding g.inputs).2 with _ | ⟨e | last, rest⟩
  · exact htouched
  · exact htouched
  · exact htouched

/-! ### Context menus -/

omit [DecidableEq κ] in
/-- A menu leaves the application alone, and what is chosen from it is enabled. -/
theorem trackMenu_ends (ev : ScreenEvent) (enabled : List Bool) :
    Program.Ends (trackMenu env ev enabled) g
      (fun i g' => g'.app = g.app ∧ ∀ k ∈ i, enabled[k]? = some true) fun _ g' => g'.app = g.app := by
  unfold trackMenu
  refine .bind (.read ?_)
  dsimp only
  split
  · next menu rest hreturned =>
      refine .bind (.update (.pure ⟨rfl, fun k hk => ?_⟩))
      have hchosen := Ui.Menu.enabled_of_chosen hreturned (List.mem_of_mem_head? hk)
      rwa [List.map_map, show (Prod.snd ∘ fun enabled : Bool =>
        ((⟨contextMenuWidth, 1⟩ : Ui.Size), enabled)) = id from rfl, List.map_id] at hchosen
  · exact .bind (.update (.fail rfl))
  · exact .bind (.update (.fail rfl))

omit [DecidableEq κ] in
theorem ask_ends : Program.Ends (ask env) g (fun _ g' => g'.app = g.app) fun _ g' => g'.app = g.app := by
  refine .bind (.read ?_)
  split
  · exact .bind (.update (.fail rfl))
  · next clicked rest _ =>
      refine .bind (.update ?_)
      cases clicked with
      | none => exact .fail rfl
      | some clicked => exact .pure rfl

theorem trackContextMenuRevNameField_leads (ev : ScreenEvent) {i : Nat} {col : Ui.RevColumn}
    (hcol : g.app.columns[i]? = some col) :
    Leads env inputs (trackContextMenuRevNameField env inputs ev i col.rev) g := by
  have hstays {g' : Gui κ ω} (h : g'.app = g.app) : App.Arrives env inputs g.app g'.app := by
    rw [h]
    exact refl_of (App.Arrives env inputs) g.app
  refine .bind ((trackMenu_ends ev _).mono (fun k g' hmenu => ?_) fun _ _ h => hstays h)
  obtain ⟨happ, henabled⟩ := hmenu
  have hcol' : g'.app.columns[i]? = some col := by rwa [happ]
  have hrev : g'.app.colRev i = some col.rev := by rw [colRev, hcol', Option.map_some]
  have hlead {α : Type} {x : Program (Gui κ ω) Stop α} (hx : Leads env inputs x g') :
      Program.Ends x g' (fun _ g'' => App.Arrives env inputs g.app g''.app)
        fun _ g'' => App.Arrives env inputs g.app g''.app := by
    rw [← happ]
    exact hx
  split
  · exact .update (hstays happ)
  · -- a copy of the column's ref
    refine hlead (leads_inApp (.duplicate i) ?_ ?_)
    · show (g'.app.colRev i).isSome = true
      rw [hrev]
      rfl
    · show _ = withRev (g'.app.colRev i) _ g'.app
      rw [hrev]
      rfl
  · -- the column's ref is deleted
    have hmutable : col.rev.isMutable = true := Option.some.inj (henabled 2 rfl)
    obtain ⟨ref, href, hcolRef⟩ := colRef_isSome hcol' hmutable
    refine .bind (ask_ends.mono (fun clicked g₂ hasked => ?_) fun _ _ h => hstays (h.trans happ))
    rw [href]
    cases clicked with
    | false => exact .pure (hstays (hasked.trans happ))
    | true =>
        show Program.Ends (inApp (refRemove env.toEnv inputs ref)) g₂ _ _
        have hoffers : g₂.app.offers (.remove i) = true := by
          show (g₂.app.colRef i).isSome = true
          rw [hasked, hcolRef]
          rfl
        have hleads : Leads env inputs (inApp (refRemove env.toEnv inputs ref)) g₂ :=
          leads_inApp (.remove i) hoffers (by
            show _ = withRev (g₂.app.colRef i) _ g₂.app
            rw [hasked, hcolRef]
            rfl)
        rw [← happ, ← hasked]
        exact hleads
  · exact .pure (hstays happ)

theorem trackContextMenuCommitPanel_leadsToOp (ev : ScreenEvent) {i : Nat} {col : Ui.RevColumn}
    {panel : Commit} (hcol : g.app.columns[i]? = some col) (hpanel : panel ∈ col.panels) :
    LeadsToOp env inputs (trackContextMenuCommitPanel env inputs ev col panel) g := by
  have hselected : App.Arrives env inputs g.app
      { g.app with selection := contextSelection g.app col panel } := by
    unfold contextSelection
    split
    · exact App.Arrives.select_one hcol hpanel
    · exact refl_of (App.Arrives env inputs) g.app
  refine .bind (.read (.bind (.update (.bind (.read ?_)))))
  refine .bind ((trackMenu_ends ev _).mono (fun k g' hmenu => ?_) fun _ g' h => by rwa [h])
  obtain ⟨happ, henabled⟩ := hmenu
  dsimp only at happ henabled ⊢
  have hthere : App.Arrives env inputs g.app g'.app := by rwa [happ]
  have hop {op : Modify.Op} (hoffered : Offered g'.app op) :
      LeadsToOp env inputs (pure (some op)) g' := by
    refine .pure ⟨refl_of (App.Arrives env inputs) g'.app, fun o ho => ?_⟩
    cases ho
    exact hoffered
  have hlead {x : Program (Gui κ ω) Stop (Option Modify.Op)} (hx : LeadsToOp env inputs x g') :
      Program.Ends x g' (fun op g'' => App.Arrives env inputs g.app g''.app ∧
        ∀ o ∈ op, Offered g''.app o) fun _ g'' => App.Arrives env inputs g.app g''.app :=
    hx.mono (fun _ _ h => ⟨trans_of (App.Arrives env inputs) hthere h.1, h.2⟩)
      fun _ _ h => trans_of (App.Arrives env inputs) hthere h
  rw [← happ] at henabled ⊢
  split
  · -- a branch at the only commit that is selected
    have hbranch : g'.app.selectionCanBranch = true := Option.some.inj (henabled 0 rfl)
    split
    · exact .fail hthere
    · next commit hcommit =>
        have hcol' : g'.app.columns[i]? = some col := by
          rw [happ]
          exact hcol
        have hrev : g'.app.colRev i = some col.rev := by rw [colRev, hcol', Option.map_some]
        have honly : theOnly g'.app.selection.commits = some commit := by
          rw [happ]
          exact hcommit
        have hleads : Leads env inputs (inApp (revCreate env.toEnv inputs true col.rev commit)) g' :=
          leads_inApp (.branch (some i)) (by
            show ((g'.app.colRev i).isSome && decide (g'.app.selection.commits.card = 1)) = true
            rw [hrev]
            exact hbranch)
          (by
            show _ = withRev (g'.app.colRev i) (fun rev => withRev (theOnly g'.app.selection.commits)
              fun commit => revCreate env.toEnv inputs true rev commit) g'.app
            rw [hrev, honly]
            rfl)
        refine .bind (hleads.mono (fun _ _ h => .pure ⟨trans_of (App.Arrives env inputs) hthere h,
          fun o ho => (nomatch ho)⟩) fun _ _ h => trans_of (App.Arrives env inputs) hthere h)
  · exact hlead (hop (offered_combine (Option.some.inj (henabled 1 rfl))))
  · exact hlead (hop (offered_edit (Option.some.inj (henabled 2 rfl))))
  · exact hlead (hop (offered_delete (Option.some.inj (henabled 3 rfl))))
  · exact .pure ⟨hthere, fun o ho => (nomatch ho)⟩

/-! ### Events -/

theorem leads_pure : Leads env inputs (pure ()) g := .pure (refl_of (App.Arrives env inputs) g.app)

theorem handleMouseDown_leads (ev : ScreenEvent) :
    Leads env inputs (handleMouseDown env inputs ev) g := by
  refine .bind (.read ?_)
  dsimp only
  split
  · split
    · next i panel hhit _ =>
        obtain ⟨col, hcol, hpanel⟩ := hitTest_panel hhit
        rw [hcol]
        exact leads_bind_execIf (trackMouseInsideCommitPanel_leadsToOp hcol hpanel)
    · exact leads_pure
    · exact trackSelectionRect_leads ev
  · split
    · split
      · next i hhit =>
          cases hcol : g.app.columns[i]? with
          | none => exact leads_pure
          | some col => exact trackContextMenuRevNameField_leads ev hcol
      · next i panel hhit =>
          obtain ⟨col, hcol, hpanel⟩ := hitTest_panel hhit
          rw [hcol]
          exact leads_bind_execIf (trackContextMenuCommitPanel_leadsToOp ev hcol hpanel)
      · exact leads_pure
    · exact leads_pure

/-- An event that no view handles, and all that is read while it is handled. -/
theorem handleEvent_leads (ev : ScreenEvent) : Leads env inputs (handleEvent env inputs ev) g := by
  have hexec {op : Modify.Op} (hoffered : Offered g.app op) :
      Leads env inputs (execIf env inputs (some op)) g := by
    refine leads_execIf fun o ho => ?_
    cases ho
    exact hoffered
  refine .bind (.read ?_)
  split
  · exact handleMouseDown_leads ev
  · split
    · split
      · next hcan => exact hexec (offered_delete hcan)
      · exact leads_pure
    · split
      · split
        · next rev commit hcan hrev hcommit =>
            refine leads_inApp (.branch none) ?_ ?_
            · show (g.app.selection.rev.isSome && decide (g.app.selection.commits.card = 1)) = true
              rw [hrev]
              exact hcan
            · show _ = withRev g.app.selection.rev (fun rev => withRev
                (theOnly g.app.selection.commits) fun commit =>
                  revCreate env.toEnv inputs true rev commit) g.app
              rw [hrev, hcommit]
              rfl
        · exact .fail (refl_of (App.Arrives env inputs) g.app)
        · exact leads_pure
      · split
        · split
          · next hcan => exact hexec (offered_combine hcan)
          · exact leads_pure
        · split
          · split
            · next hcan => exact hexec (offered_edit hcan)
            · exact leads_pure
          · exact leads_pure

end Gui

end App
end Debase
