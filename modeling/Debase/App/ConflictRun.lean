import Debase.App.ConflictEditor
import Debase.App.State
import Debase.Git.Display
import Debase.Ui.ConflictPanel

/-!
# Resolving all conflicts of an operation

`_gitConflictsResolve` goes through the conflicts of an index, presents a panel for every conflict
hunk and resolves each conflict with what the user has chosen in its panels.  The panels are
numbered over all conflicts.  A text from the editor stands for the whole file, and then the other
panels of the file are not presented.
-/

namespace Debase

open Library Toastbox Git

/-- `Rev::displayName`; `id` is the id of a commit. -/
def Rev.displayName (id : Commit → Oid) (rev : Rev) : Bytes :=
  match rev.ref with
  | some ref => ref.name ++ if rev.skip = 0 then [] else ascii "~" ++ ascii (toString rev.skip)
  | none => displayStringForId (id rev.commit) 7

namespace App

/-! ## One panel -/

/-- What the user does in a panel: a button, and for the editor what happens there. -/
inductive Press where
  | choose (left : Bool)
  | openInEditor (turns : List EditTurn)
  | cancel

/-- The button that is pressed; Escape is the same as the cancel button. -/
def Press.button : Press → Ui.PanelButton
  | .choose true => .chooseLeft
  | .choose false => .chooseRight
  | .openInEditor _ => .openInEditor
  | .cancel => .cancel

/-- What happens in the editor if the button opens it. -/
def Press.turns : Press → List EditTurn
  | .openInEditor turns => turns
  | _ => []

/-- The text of a panel that is opened for one conflict of several. -/
def panelTitle (conflictIdx conflictCount : Nat) : Bytes :=
  ascii "Conflict [" ++ ascii (toString (conflictIdx + 1)) ++ ascii "/" ++
    ascii (toString conflictCount) ++ ascii "]"

/-- What `_gitConflictsResolve` has found out before the first panel. -/
structure PanelSetup where
  layout : Ui.Layout
  conflictCount : Nat
  nameOurs : Bytes
  nameTheirs : Bytes

/-- The panel of a hunk. -/
def PanelSetup.panel (setup : PanelSetup) (conflictIdx : Nat) (fc : Conflict) (i : Nat) :
    Ui.ConflictPanel where
  layout := setup.layout
  title := panelTitle conflictIdx setup.conflictCount
  refNameOurs := setup.nameOurs
  refNameTheirs := setup.nameTheirs
  fileConflict := fc
  hunkIdx := i

section Panels

variable (env : EditEnv)

/-- The loop around one panel. -/
def panelRun (panel : Ui.ConflictPanel) (hunk : Hunk) : List Press → PanelStep
  | [] => .leave .waiting
  | press :: presses =>
      match panel.done press.button with
      | .chooseOurs => .append hunk.linesOurs
      | .chooseTheirs => .append hunk.linesTheirs
      | .openInEditor =>
          match env.gitConflictResolveInEditor panel.fileConflict press.turns with
          | none => .leave .waiting
          | some (.ok editorContent) =>
              -- a cleared text stands for no file only if one of the sides is no file
              if editorContent.isEmpty && panel.noFile then .leave (.content none)
              else .leave (.content (some editorContent))
          | some (.error e) =>
              if e = .conflictResolveCanceled then panelRun panel hunk presses
              else .leave (.threw e)
      | .cancel => .leave (.threw .conflictResolveCanceled)

/-- The loop over the hunks of a file, with the panels that it presents. -/
def panelRuns (setup : PanelSetup) (fc : Conflict) (presses : Nat → List Press) :
    Nat → Nat → List Hunk → List Bytes → List Ui.ConflictPanel × PanelOutcome
  | _, _, [], lines =>
      ([], .content (if lines.isEmpty then none else some (env.strings.join lines)))
  | i, conflictIdx, hunk :: hunks, lines =>
      match hunk.type with
      | .normal => panelRuns setup fc presses (i + 1) conflictIdx hunks (lines ++ hunk.normal)
      | .conflict =>
          let panel := setup.panel conflictIdx fc i
          match panelRun env panel hunk (presses i) with
          | .append chosen =>
              let rest := panelRuns setup fc presses (i + 1) (conflictIdx + 1) hunks (lines ++ chosen)
              (panel :: rest.1, rest.2)
          | .leave outcome => ([panel], outcome)

/-- `_gitRunConflictPanel`. -/
def runConflictPanel (setup : PanelSetup) (conflictIdx : Nat) (fc : Conflict)
    (presses : Nat → List Press) : List Ui.ConflictPanel × PanelOutcome :=
  panelRuns env setup fc presses 0 conflictIdx fc.hunks []

end Panels

/-! ## All panels -/

/-- How the resolution ends, or that it waits for the user. -/
inductive ResolveEnd where
  | returned (index : Index)
  | threw (e : Exn)
  | waiting

/-- What a resolution leaves behind: the panels that it has presented, in this order, how it ended
and the state of the repository. -/
structure Resolution (σ : Type) where
  panels : List Ui.ConflictPanel
  outcome : ResolveEnd
  state : σ

/-- The first of the two revs among the columns is shown on the left. -/
def conflictLayout (revOurs revTheirs : Rev) : List Rev → Ui.Layout
  | [] => .leftOurs
  | rev :: revs =>
      if rev.same revOurs then .leftOurs
      else if rev.same revTheirs then .rightOurs
      else conflictLayout revOurs revTheirs revs

section Resolve

variable {σ : Type} (env : EditEnv) (repo : Git.Repo σ)

/-- The loop over the conflicts from the `j`-th on. -/
def resolveLoop (setup : PanelSetup) (presses : Nat → Nat → List Press) :
    Nat → Nat → List Conflict → Index → σ → Resolution σ
  | _, _, [], index, s => ⟨[], .returned index, s⟩
  | j, conflictIdx, fc :: fcs, index, s =>
      let run := runConflictPanel env setup conflictIdx fc (presses j)
      match run.2 with
      | .waiting => ⟨run.1, .waiting, s⟩
      | .threw e => ⟨run.1, .threw e, s⟩
      | .content content =>
          match conflictResolve repo index fc content s with
          | (.error e, s') => ⟨run.1, .threw e, s'⟩
          | (.ok index', s') =>
              let rest := resolveLoop setup presses (j + 1) (conflictIdx + fc.conflictCount) fcs
                index' s'
              ⟨run.1 ++ rest.panels, rest.outcome, rest.state⟩

/-- What the panels of a resolution have in common.  Without a destination, the source of the
operation is on both sides. -/
def panelSetup (id : Commit → Oid) (revs : List Rev) (src : Rev) (dst : Option Rev)
    (fcs : List Conflict) : PanelSetup :=
  let revOurs := dst.getD src
  let revTheirs := src
  { layout := conflictLayout revOurs revTheirs revs
    conflictCount := (fcs.map Conflict.conflictCount).sum
    nameOurs := revOurs.displayName id
    nameTheirs := revTheirs.displayName id }

/-- `_gitConflictsResolve`, for an operation from `src` to `dst` and what the user does in the panel
of each hunk of each conflict. -/
def gitConflictsResolve (id : Commit → Oid) (revs : List Rev) (src : Rev) (dst : Option Rev)
    (presses : Nat → Nat → List Press) (index : Index) (fcs : List Conflict) (s : σ) :
    Resolution σ :=
  resolveLoop env repo (panelSetup id revs src dst fcs) presses 0 0 fcs index s

end Resolve

/-! ## The panel with the editor is the panel -/

section Panels

variable {env : EditEnv} {setup : PanelSetup} {fc : Conflict}

/-- The presses as clicks that already say how the editing ends. -/
def clicks (env : EditEnv) (done : Ui.PanelButton → Ui.Result) (fc : Conflict) :
    List Press → List Click
  | [] => []
  | press :: presses =>
      match done press.button with
      | .chooseOurs => .chooseOurs :: clicks env done fc presses
      | .chooseTheirs => .chooseTheirs :: clicks env done fc presses
      | .openInEditor =>
          match env.gitConflictResolveInEditor fc press.turns with
          | none => []
          | some edited => .openInEditor edited :: clicks env done fc presses
      | .cancel => .cancel :: clicks env done fc presses

theorem panelRun_eq (panel : Ui.ConflictPanel) (hunk : Hunk) (presses : List Press) :
    panelRun env panel hunk presses =
      hunkPanel panel.fileConflict hunk (clicks env panel.done panel.fileConflict presses) := by
  induction presses with
  | nil => rfl
  | cons press presses ih =>
      unfold panelRun clicks
      cases panel.done press.button with
      | chooseOurs => rfl
      | chooseTheirs => rfl
      | cancel => rfl
      | openInEditor =>
          dsimp only
          cases env.gitConflictResolveInEditor panel.fileConflict press.turns with
          | none => rfl
          | some edited =>
              cases edited with
              | ok text => rfl
              | error e =>
                  dsimp only
                  unfold hunkPanel
                  rw [ih]

/-- What the buttons of a panel do is the same for every hunk of the file. -/
theorem PanelSetup.done_panel (conflictIdx i : Nat) :
    (setup.panel conflictIdx fc i).done = (setup.panel 0 fc 0).done := by
  unfold PanelSetup.panel
  funext button
  unfold Ui.ConflictPanel.done
  rfl

theorem PanelSetup.fileConflict_panel (conflictIdx i : Nat) :
    (setup.panel conflictIdx fc i).fileConflict = fc := rfl

theorem panelRuns_outcome (presses : Nat → List Press) (i conflictIdx : Nat) (hunks : List Hunk)
    (lines : List Bytes) :
    (panelRuns env setup fc presses i conflictIdx hunks lines).2 =
      hunkPanels env.strings fc (fun k => clicks env (setup.panel 0 fc 0).done fc (presses k)) i
        hunks lines := by
  induction hunks generalizing i conflictIdx lines with
  | nil => rfl
  | cons hunk hunks ih =>
      unfold panelRuns hunkPanels
      cases hunk.type with
      | normal => exact ih (i + 1) conflictIdx _
      | conflict =>
          have hrun := @panelRun_eq env (setup.panel conflictIdx fc i) hunk (presses i)
          rw [PanelSetup.done_panel, PanelSetup.fileConflict_panel] at hrun
          dsimp only
          rw [hrun]
          cases hunkPanel fc hunk (clicks env (setup.panel 0 fc 0).done fc (presses i)) with
          | append chosen => exact ih (i + 1) (conflictIdx + 1) _
          | leave outcome => rfl

/-- What a file is resolved to is what the panel gives for the clicks. -/
theorem runConflictPanel_outcome (conflictIdx : Nat) (presses : Nat → List Press) :
    (runConflictPanel env setup conflictIdx fc presses).2 =
      gitRunConflictPanel env.strings fc fun k =>
        clicks env (setup.panel 0 fc 0).done fc (presses k) :=
  panelRuns_outcome presses 0 conflictIdx fc.hunks []

/-! ## The numbers of the panels -/

/-- The panels of the conflict hunks from the `i`-th hunk on, numbered from `conflictIdx` on. -/
def panelsFrom (setup : PanelSetup) (fc : Conflict) : Nat → Nat → List Hunk → List Ui.ConflictPanel
  | _, _, [] => []
  | i, conflictIdx, hunk :: hunks =>
      match hunk.type with
      | .normal => panelsFrom setup fc (i + 1) conflictIdx hunks
      | .conflict =>
          setup.panel conflictIdx fc i :: panelsFrom setup fc (i + 1) (conflictIdx + 1) hunks

/-- The panels of all conflict hunks of all conflicts. -/
def panelsOf (setup : PanelSetup) : Nat → List Conflict → List Ui.ConflictPanel
  | _, [] => []
  | conflictIdx, fc :: fcs =>
      panelsFrom setup fc 0 conflictIdx fc.hunks ++
        panelsOf setup (conflictIdx + fc.conflictCount) fcs

theorem titles_panelsFrom (i conflictIdx : Nat) (hunks : List Hunk) :
    (panelsFrom setup fc i conflictIdx hunks).map Ui.ConflictPanel.title =
      (List.range' conflictIdx (hunks.countP fun h => h.type = .conflict)).map
        fun k => panelTitle k setup.conflictCount := by
  induction hunks generalizing i conflictIdx with
  | nil => rfl
  | cons hunk hunks ih =>
      unfold panelsFrom
      cases htype : hunk.type with
      | normal =>
          rw [List.countP_cons_of_neg (by simp [htype])]
          exact ih (i + 1) conflictIdx
      | conflict =>
          rw [List.countP_cons_of_pos (by simp [htype]), List.range'_succ, List.map_cons,
            List.map_cons]
          exact congrArg _ (ih (i + 1) (conflictIdx + 1))

/-- The numbers go through without a gap. -/
theorem titles_panelsOf (conflictIdx : Nat) (fcs : List Conflict) :
    (panelsOf setup conflictIdx fcs).map Ui.ConflictPanel.title =
      (List.range' conflictIdx (fcs.map Conflict.conflictCount).sum).map
        fun k => panelTitle k setup.conflictCount := by
  induction fcs generalizing conflictIdx with
  | nil => rfl
  | cons fc fcs ih =>
      rw [panelsOf, List.map_append, titles_panelsFrom, ih, List.map_cons, List.sum_cons,
        ← List.range'_append, List.map_append]
      unfold Conflict.conflictCount
      simp

/-- The panels that are presented for a file are the first ones of its panels. -/
theorem panelRuns_presented (presses : Nat → List Press) (i conflictIdx : Nat) (hunks : List Hunk)
    (lines : List Bytes) :
    (panelRuns env setup fc presses i conflictIdx hunks lines).1 <+:
      panelsFrom setup fc i conflictIdx hunks := by
  induction hunks generalizing i conflictIdx lines with
  | nil => exact List.prefix_rfl
  | cons hunk hunks ih =>
      unfold panelRuns panelsFrom
      cases hunk.type with
      | normal => exact ih (i + 1) conflictIdx _
      | conflict =>
          dsimp only
          cases panelRun env (setup.panel conflictIdx fc i) hunk (presses i) with
          | append chosen =>
              exact List.cons_prefix_cons.mpr ⟨rfl, ih (i + 1) (conflictIdx + 1) _⟩
          | leave outcome => exact List.cons_prefix_cons.mpr ⟨rfl, List.nil_prefix⟩

/-- The editor is not opened in the panels of a file. -/
def NoEditor (presses : Nat → List Press) : Prop :=
  ∀ k, ∀ press ∈ presses k, ∀ turns, press ≠ .openInEditor turns

/-- A panel whose editor is not opened never decides about the whole file. -/
theorem panelRun_ne_content {panel : Ui.ConflictPanel} {hunk : Hunk} {presses : List Press}
    (h : ∀ press ∈ presses, ∀ turns, press ≠ .openInEditor turns) (content : Option Bytes) :
    panelRun env panel hunk presses ≠ .leave (.content content) := by
  cases presses with
  | nil => simp [panelRun]
  | cons press presses =>
      unfold panelRun
      cases press with
      | choose left =>
          unfold Press.button Ui.ConflictPanel.done
          cases left with
          | false => cases panel.layout <;> simp
          | true => cases panel.layout <;> simp
      | openInEditor turns => exact absurd rfl (h _ List.mem_cons_self turns)
      | cancel => simp [Press.button, Ui.ConflictPanel.done]

/-- Without the editor, a file is resolved in all of its panels. -/
theorem panelRuns_all {presses : Nat → List Press} (hno : NoEditor presses) {i conflictIdx : Nat}
    {hunks : List Hunk} {lines : List Bytes} {content : Option Bytes}
    (h : (panelRuns env setup fc presses i conflictIdx hunks lines).2 = .content content) :
    (panelRuns env setup fc presses i conflictIdx hunks lines).1 =
      panelsFrom setup fc i conflictIdx hunks := by
  induction hunks generalizing i conflictIdx lines with
  | nil => rfl
  | cons hunk hunks ih =>
      unfold panelRuns at h ⊢
      unfold panelsFrom
      cases htype : hunk.type with
      | normal =>
          rw [htype] at h
          exact ih h
      | conflict =>
          rw [htype] at h
          dsimp only at h ⊢
          cases hrun : panelRun env (setup.panel conflictIdx fc i) hunk (presses i) with
          | append chosen =>
              rw [hrun] at h
              dsimp only
              rw [ih h]
          | leave outcome =>
              rw [hrun] at h
              obtain rfl : outcome = .content content := h
              exact absurd hrun (panelRun_ne_content (hno i) content)

/-- A panel is opened for a conflict hunk that the file has. -/
def OnConflict (panel : Ui.ConflictPanel) : Prop :=
  ∃ hunk, panel.fileConflict.hunks[panel.hunkIdx]? = some hunk ∧ hunk.type = .conflict

theorem onConflict_panelsFrom {pre hunks : List Hunk} (hsplit : fc.hunks = pre ++ hunks)
    (conflictIdx : Nat) :
    ∀ panel ∈ panelsFrom setup fc pre.length conflictIdx hunks, OnConflict panel := by
  induction hunks generalizing pre conflictIdx with
  | nil => exact List.forall_mem_nil _
  | cons hunk hunks ih =>
      have hrest : fc.hunks = (pre ++ [hunk]) ++ hunks := by
        rw [hsplit, List.append_assoc, List.singleton_append]
      have hnext := fun idx => ih hrest idx
      rw [List.length_append, List.length_singleton] at hnext
      unfold panelsFrom
      cases htype : hunk.type with
      | normal => exact hnext conflictIdx
      | conflict =>
          refine List.forall_mem_cons.mpr ⟨⟨hunk, ?_, htype⟩, hnext (conflictIdx + 1)⟩
          show fc.hunks[pre.length]? = some hunk
          rw [hsplit, List.getElem?_append_right (Nat.le_refl _), Nat.sub_self]
          rfl

theorem onConflict_panelsOf (conflictIdx : Nat) (fcs : List Conflict) :
    ∀ panel ∈ panelsOf setup conflictIdx fcs, OnConflict panel := by
  induction fcs generalizing conflictIdx with
  | nil => exact List.forall_mem_nil _
  | cons fc fcs ih =>
      intro panel hpanel
      rcases List.mem_append.mp hpanel with hpanel | hpanel
      · exact onConflict_panelsFrom (List.nil_append _).symm conflictIdx panel hpanel
      · exact ih _ panel hpanel

end Panels

section Numbers

variable {σ : Type} {env : EditEnv} {repo : Git.Repo σ} {setup : PanelSetup}
  {presses : Nat → Nat → List Press}

theorem resolveLoop_sublist (j conflictIdx : Nat) (fcs : List Conflict) (index : Index) (s : σ) :
    (resolveLoop env repo setup presses j conflictIdx fcs index s).panels.Sublist
      (panelsOf setup conflictIdx fcs) := by
  induction fcs generalizing j conflictIdx index s with
  | nil => exact List.Sublist.refl _
  | cons fc fcs ih =>
      have hfirst : (runConflictPanel env setup conflictIdx fc (presses j)).1.Sublist
          (panelsFrom setup fc 0 conflictIdx fc.hunks) :=
        (panelRuns_presented (presses j) 0 conflictIdx fc.hunks []).sublist
      unfold resolveLoop panelsOf
      dsimp only
      split
      · exact hfirst.trans (List.sublist_append_left _ _)
      · exact hfirst.trans (List.sublist_append_left _ _)
      · split
        · exact hfirst.trans (List.sublist_append_left _ _)
        · exact hfirst.append (ih _ _ _ _)

theorem resolveLoop_all (hno : ∀ j, NoEditor (presses j)) {j conflictIdx : Nat}
    {fcs : List Conflict} {index index' : Index} {s : σ}
    (h : (resolveLoop env repo setup presses j conflictIdx fcs index s).outcome =
      .returned index') :
    (resolveLoop env repo setup presses j conflictIdx fcs index s).panels =
      panelsOf setup conflictIdx fcs := by
  induction fcs generalizing j conflictIdx index s with
  | nil => rfl
  | cons fc fcs ih =>
      unfold resolveLoop at h ⊢
      unfold panelsOf
      dsimp only at h ⊢
      cases hrun : (runConflictPanel env setup conflictIdx fc (presses j)).2 with
      | waiting =>
          rw [hrun] at h
          cases h
      | threw e =>
          rw [hrun] at h
          cases h
      | content content =>
          have hfirst : (runConflictPanel env setup conflictIdx fc (presses j)).1 = _ :=
            panelRuns_all (hno j) hrun
          rw [hrun] at h
          dsimp only at h ⊢
          rcases hres : conflictResolve repo index fc content s with ⟨e | index₁, s₁⟩
          · rw [hres] at h
            cases h
          · rw [hres] at h
            dsimp only at h ⊢
            rw [hfirst, ih h]

/-- The panels of a resolution are numbered in the order they are presented in, each with the
number of its conflict hunk among all conflict hunks; if the editor is not opened and all
conflicts are resolved, no number is left out. -/
theorem gitConflictsResolve_numbered (id : Commit → Oid) (revs : List Rev) (src : Rev)
    (dst : Option Rev) (index : Index) (fcs : List Conflict) (s : σ) :
    let setup := panelSetup id revs src dst fcs
    let r := gitConflictsResolve env repo id revs src dst presses index fcs s
    r.panels.Sublist (panelsOf setup 0 fcs) ∧ (∀ panel ∈ r.panels, OnConflict panel) ∧
      (panelsOf setup 0 fcs).map Ui.ConflictPanel.title =
        (List.range setup.conflictCount).map (fun k => panelTitle k setup.conflictCount) ∧
      ((∀ j, NoEditor (presses j)) → ∀ index', r.outcome = .returned index' →
        r.panels = panelsOf setup 0 fcs) := by
  have hsublist := @resolveLoop_sublist _ env repo (panelSetup id revs src dst fcs) presses 0 0 fcs
    index s
  refine ⟨hsublist, fun panel hpanel => ?_, ?_, fun hno index' hreturned => ?_⟩
  · exact onConflict_panelsOf 0 fcs panel (hsublist.subset hpanel)
  · rw [titles_panelsOf, List.range_eq_range']
    rfl
  · exact resolveLoop_all hno hreturned

end Numbers

/-! ## What a file is resolved to -/

section Decided

variable (env : EditEnv) (setup : PanelSetup) (fc : Conflict)

/-- The user cancels the editing in a panel and is back in it. -/
def GoesOn (press : Press) : Prop :=
  ∃ turns, press = .openInEditor turns ∧
    env.gitConflictResolveInEditor fc turns = some (.error .conflictResolveCanceled)

/-- The press that decides a panel: before it the user only cancels the editing. -/
def Decides (presses : List Press) (press : Press) : Prop :=
  ∃ pre post, presses = pre ++ press :: post ∧ ∀ p ∈ pre, GoesOn env fc p

/-- The side that is shown on the left or on the right of every panel. -/
def PanelSetup.side (left : Bool) : Side := (setup.panel 0 fc 0).side left

/-- Lines that take, of every conflict hunk from the `i`-th hunk on, the side that is pressed in
its panel. -/
inductive Picks (presses : Nat → List Press) : Nat → List Hunk → List Bytes → Prop where
  | nil (i : Nat) : Picks presses i [] []
  | normal {i : Nat} {hunk : Hunk} {hunks : List Hunk} {lines : List Bytes}
      (htype : hunk.type = .normal) (rest : Picks presses (i + 1) hunks lines) :
      Picks presses i (hunk :: hunks) (hunk.normal ++ lines)
  | conflict {i : Nat} {hunk : Hunk} {hunks : List Hunk} {lines : List Bytes} (left : Bool)
      (htype : hunk.type = .conflict) (press : Decides env fc (presses i) (.choose left))
      (rest : Picks presses (i + 1) hunks lines) :
      Picks presses i (hunk :: hunks) (hunk.lines (setup.side fc left) ++ lines)

/-- The panel of the `k`-th of these hunks is presented: it is a conflict, and a side is pressed in
the panels before it. -/
def PanelOpened (presses : Nat → List Press) (i : Nat) (hunks : List Hunk) (k : Nat) : Prop :=
  (∃ hunk, hunks[k]? = some hunk ∧ hunk.type = .conflict) ∧
    ∃ lines, Picks env setup fc presses i (hunks.take k) lines

/-- What the user decides in the panels of a file: the lines of the sides that are pressed, or the
text that the editor of one of the panels leaves. -/
inductive Decided (presses : Nat → List Press) (content : Option Bytes) : Prop where
  | chosen (lines : List Bytes) (picks : Picks env setup fc presses 0 fc.hunks lines)
      (eq : content = if lines.isEmpty then none else some (joinLines lines))
  | edited (k : Nat) (turns : List EditTurn) (text : Bytes)
      (opened : PanelOpened env setup fc presses 0 fc.hunks k)
      (press : Decides env fc (presses k) (.openInEditor turns))
      (run : env.gitConflictResolveInEditor fc turns = some (.ok text))
      (eq : content = if text.isEmpty && (fc.noFile .ours || fc.noFile .theirs) then none
        else some text)

/-- The press that decides a panel throws: it cancels, or it opens the editor and that throws. -/
def PressThrows (e : Exn) : Press → Prop
  | .choose _ => False
  | .openInEditor turns => env.gitConflictResolveInEditor fc turns = some (.error e)
  | .cancel => e = .conflictResolveCanceled

/-- What is thrown in the panels of a file. -/
def Throws (presses : Nat → List Press) (e : Exn) : Prop :=
  ∃ k press, PanelOpened env setup fc presses 0 fc.hunks k ∧ Decides env fc (presses k) press ∧
    PressThrows env fc e press

end Decided

section Pressed

variable {env : EditEnv} {setup : PanelSetup} {fc : Conflict}

theorem PanelSetup.side_panel (conflictIdx i : Nat) (left : Bool) :
    (setup.panel conflictIdx fc i).side left = setup.side fc left := by
  unfold PanelSetup.side PanelSetup.panel Ui.ConflictPanel.side
  rfl

theorem Decides.head (press : Press) (presses : List Press) :
    Decides env fc (press :: presses) press :=
  ⟨[], presses, rfl, List.forall_mem_nil _⟩

theorem Decides.goOn {first press : Press} {presses : List Press} (hfirst : GoesOn env fc first)
    (h : Decides env fc presses press) : Decides env fc (first :: presses) press := by
  obtain ⟨pre, post, rfl, hpre⟩ := h
  exact ⟨first :: pre, post, rfl, List.forall_mem_cons.mpr ⟨hfirst, hpre⟩⟩

theorem PanelOpened.here {presses : Nat → List Press} {hunk : Hunk} (htype : hunk.type = .conflict)
    (i : Nat) (hunks : List Hunk) : PanelOpened env setup fc presses i (hunk :: hunks) 0 :=
  ⟨⟨hunk, rfl, htype⟩, [], .nil i⟩

theorem PanelOpened.normal {presses : Nat → List Press} {hunk : Hunk} (htype : hunk.type = .normal)
    {i k : Nat} {hunks : List Hunk} (h : PanelOpened env setup fc presses (i + 1) hunks k) :
    PanelOpened env setup fc presses i (hunk :: hunks) (k + 1) := by
  obtain ⟨hhunk, lines, hpicks⟩ := h
  exact ⟨hhunk, _, .normal htype hpicks⟩

theorem PanelOpened.conflict {presses : Nat → List Press} {hunk : Hunk} (left : Bool)
    (htype : hunk.type = .conflict) {i k : Nat} {hunks : List Hunk}
    (hpress : Decides env fc (presses i) (.choose left))
    (h : PanelOpened env setup fc presses (i + 1) hunks k) :
    PanelOpened env setup fc presses i (hunk :: hunks) (k + 1) := by
  obtain ⟨hhunk, lines, hpicks⟩ := h
  exact ⟨hhunk, _, .conflict left htype hpress hpicks⟩

/-- One panel appends the lines of the side that is pressed, or leaves with the text of the editor
that is opened, or with an exception. -/
theorem panelRun_cases (panel : Ui.ConflictPanel) {hunk : Hunk} (htype : hunk.type = .conflict)
    (presses : List Press) :
    (∃ left, Decides env panel.fileConflict presses (.choose left) ∧
        panelRun env panel hunk presses = .append (panel.hunkLinesGet hunk left)) ∨
      (∃ turns text, Decides env panel.fileConflict presses (.openInEditor turns) ∧
        env.gitConflictResolveInEditor panel.fileConflict turns = some (.ok text) ∧
        panelRun env panel hunk presses = .leave (.content
          (if text.isEmpty && panel.noFile then none else some text))) ∨
      (∃ press e, Decides env panel.fileConflict presses press ∧
        PressThrows env panel.fileConflict e press ∧
        panelRun env panel hunk presses = .leave (.threw e)) ∨
      panelRun env panel hunk presses = .leave .waiting := by
  induction presses with
  | nil => exact Or.inr (Or.inr (Or.inr rfl))
  | cons press presses ih =>
      have hchoose : ∀ left, panelRun env panel hunk (.choose left :: presses) =
          .append (panel.hunkLinesGet hunk left) := by
        intro left
        unfold panelRun Press.button Ui.ConflictPanel.done Ui.ConflictPanel.hunkLinesGet
        rw [htype]
        cases left with
        | false => cases panel.layout <;> rfl
        | true => cases panel.layout <;> rfl
      cases press with
      | choose left => exact Or.inl ⟨left, .head _ _, hchoose left⟩
      | cancel => exact Or.inr (Or.inr (Or.inl ⟨_, _, .head _ _, rfl, rfl⟩))
      | openInEditor turns =>
          unfold panelRun
          dsimp only [Press.button, Press.turns, Ui.ConflictPanel.done]
          cases hedit : env.gitConflictResolveInEditor panel.fileConflict turns with
          | none => exact Or.inr (Or.inr (Or.inr rfl))
          | some edited =>
              cases edited with
              | ok text =>
                  refine Or.inr (Or.inl ⟨turns, text, .head _ _, hedit, ?_⟩)
                  dsimp only
                  split <;> rfl
              | error e =>
                  by_cases he : e = .conflictResolveCanceled
                  · -- the panel is presented again, for the presses that are left
                    subst he
                    have hgoesOn : GoesOn env panel.fileConflict (.openInEditor turns) :=
                      ⟨turns, rfl, hedit⟩
                    dsimp only
                    rw [if_pos rfl]
                    rcases ih with ⟨left, hpress, hrun⟩ | ⟨turns', text, hpress, hrest⟩ |
                      ⟨press, e, hpress, hrest⟩ | hrun
                    · exact Or.inl ⟨left, hpress.goOn hgoesOn, hrun⟩
                    · exact Or.inr (Or.inl ⟨turns', text, hpress.goOn hgoesOn, hrest⟩)
                    · exact Or.inr (Or.inr (Or.inl ⟨press, e, hpress.goOn hgoesOn, hrest⟩))
                    · exact Or.inr (Or.inr (Or.inr hrun))
                  · refine Or.inr (Or.inr (Or.inl ⟨_, e, .head _ _, hedit, ?_⟩))
                    dsimp only
                    rw [if_neg he]

/-- The panels of a file from the `i`-th hunk on. -/
theorem panelRuns_cases (presses : Nat → List Press) (i conflictIdx : Nat) (hunks : List Hunk)
    (lines : List Bytes) :
    (∃ chosen, Picks env setup fc presses i hunks chosen ∧
        (panelRuns env setup fc presses i conflictIdx hunks lines).2 =
          .content (if (lines ++ chosen).isEmpty then none
            else some (joinLines (lines ++ chosen)))) ∨
      (∃ k turns text, PanelOpened env setup fc presses i hunks k ∧
        Decides env fc (presses (i + k)) (.openInEditor turns) ∧
        env.gitConflictResolveInEditor fc turns = some (.ok text) ∧
        (panelRuns env setup fc presses i conflictIdx hunks lines).2 = .content
          (if text.isEmpty && (fc.noFile .ours || fc.noFile .theirs) then none else some text)) ∨
      (∃ k press e, PanelOpened env setup fc presses i hunks k ∧
        Decides env fc (presses (i + k)) press ∧ PressThrows env fc e press ∧
        (panelRuns env setup fc presses i conflictIdx hunks lines).2 = .threw e) ∨
      (panelRuns env setup fc presses i conflictIdx hunks lines).2 = .waiting := by
  induction hunks generalizing i conflictIdx lines with
  | nil =>
      refine Or.inl ⟨[], .nil i, ?_⟩
      rw [List.append_nil, ← env.strings.join_eq]
      rfl
  | cons hunk hunks ih =>
      have hindex : ∀ k, i + 1 + k = i + (k + 1) := fun k => by omega
      unfold panelRuns
      cases htype : hunk.type with
      | normal =>
          dsimp only
          rcases ih (i + 1) conflictIdx (lines ++ hunk.normal) with ⟨chosen, hpicks, hrun⟩ |
            ⟨k, turns, text, hopened, hpress, hrest⟩ | ⟨k, press, e, hopened, hpress, hrest⟩ | hrun
          · refine Or.inl ⟨hunk.normal ++ chosen, .normal htype hpicks, ?_⟩
            rw [← List.append_assoc]
            exact hrun
          · rw [hindex] at hpress
            exact Or.inr (Or.inl ⟨k + 1, turns, text, hopened.normal htype, hpress, hrest⟩)
          · rw [hindex] at hpress
            exact Or.inr (Or.inr (Or.inl ⟨k + 1, press, e, hopened.normal htype, hpress, hrest⟩))
          · exact Or.inr (Or.inr (Or.inr hrun))
      | conflict =>
          dsimp only
          rcases @panelRun_cases env (setup.panel conflictIdx fc i) hunk htype (presses i) with
            ⟨left, hpress, hrun⟩ | ⟨turns, text, hpress, hedit, hrun⟩ |
              ⟨press, e, hpress, hthrows, hrun⟩ | hrun
          · rw [hrun]
            dsimp only
            rw [Ui.ConflictPanel.hunkLinesGet_eq, PanelSetup.side_panel]
            rcases ih (i + 1) (conflictIdx + 1) (lines ++ hunk.lines (setup.side fc left)) with
              ⟨chosen, hpicks, hrest⟩ | ⟨k, turns, text, hopened, hpress', hrest⟩ |
                ⟨k, press, e, hopened, hpress', hrest⟩ | hrest
            · refine Or.inl ⟨_, .conflict left htype hpress hpicks, ?_⟩
              rw [← List.append_assoc]
              exact hrest
            · rw [hindex] at hpress'
              exact Or.inr (Or.inl ⟨k + 1, turns, text, hopened.conflict left htype hpress, hpress',
                hrest⟩)
            · rw [hindex] at hpress'
              exact Or.inr (Or.inr (Or.inl ⟨k + 1, press, e, hopened.conflict left htype hpress,
                hpress', hrest⟩))
            · exact Or.inr (Or.inr (Or.inr hrest))
          · rw [hrun]
            exact Or.inr (Or.inl ⟨0, turns, text, .here htype i hunks, hpress, hedit, rfl⟩)
          · rw [hrun]
            exact Or.inr (Or.inr (Or.inl ⟨0, press, e, .here htype i hunks, hpress, hthrows, rfl⟩))
          · rw [hrun]
            exact Or.inr (Or.inr (Or.inr rfl))

/-- A file is resolved to what the user decides in its panels, or what is pressed there throws, or
the user is waited for. -/
theorem runConflictPanel_cases (conflictIdx : Nat) (presses : Nat → List Press) :
    (∃ content, Decided env setup fc presses content ∧
        (runConflictPanel env setup conflictIdx fc presses).2 = .content content) ∨
      (∃ e, Throws env setup fc presses e ∧
        (runConflictPanel env setup conflictIdx fc presses).2 = .threw e) ∨
      (runConflictPanel env setup conflictIdx fc presses).2 = .waiting := by
  rcases @panelRuns_cases env setup fc presses 0 conflictIdx fc.hunks [] with
    ⟨chosen, hpicks, hrun⟩ | ⟨k, turns, text, hopened, hpress, hedit, hrun⟩ |
      ⟨k, press, e, hopened, hpress, hthrows, hrun⟩ | hrun
  · exact Or.inl ⟨_, .chosen chosen hpicks rfl, hrun⟩
  · rw [Nat.zero_add] at hpress
    exact Or.inl ⟨_, .edited k turns text hopened hpress hedit rfl, hrun⟩
  · rw [Nat.zero_add] at hpress
    exact Or.inr (Or.inl ⟨e, ⟨k, press, hopened, hpress, hthrows⟩, hrun⟩)
  · exact Or.inr (Or.inr hrun)

/-- A conflict between two submodules is one hunk with an id on either side. -/
def Genuine (fc : Conflict) : Prop :=
  fc.type = .submodule →
    ∃ ours theirs, fc.hunks = [.ofConflict [stringFromId ours] [stringFromId theirs]]

theorem genuine_conflictOf {σ : Type} {strings : Strings} {repo : Git.Repo σ} {path : Path}
    {c : IndexConflict} {s s' : σ} (hof : conflictOf strings repo path c s = (.ok fc, s')) :
    Genuine fc := by
  intro htype
  have hsome : ∀ e : Option IndexEntry, objType e = objTypeGitlink →
      ∃ id, (e.map fun e => stringFromId e.id).toList = [stringFromId id] := by
    intro e he
    cases e with
    | none => exact absurd he (by decide)
    | some e => exact ⟨e.id, rfl⟩
  unfold conflictOf at hof
  split at hof
  · obtain ⟨_, _, _, hpure⟩ := Program.bind_eq_ok.mp hof
    cases hpure
    cases htype
  · split at hof
    · next hlinks =>
        cases hof
        obtain ⟨ours, hours⟩ := hsome c.ours hlinks.1
        obtain ⟨theirs, htheirs⟩ := hsome c.theirs hlinks.2
        exact ⟨ours, theirs, by rw [hours, htheirs]⟩
    · split at hof
      · obtain ⟨_, _, _, hrest⟩ := Program.bind_eq_ok.mp hof
        obtain ⟨_, _, _, hpure⟩ := Program.bind_eq_ok.mp hrest
        cases hpure
        cases htype
      · cases hof

theorem genuine_of_conflictsGet {σ : Type} {strings : Strings} {repo : Git.Repo σ} {index : Index}
    {s s' : σ} {fcs : List Conflict} (h : conflictsGet strings repo index s = (.ok fcs, s')) :
    ∀ fc ∈ fcs, Genuine fc := by
  intro fc hfc
  obtain ⟨i, hi⟩ := List.mem_iff_getElem?.mp hfc
  obtain ⟨c, s₁, s₂, -, hof, -⟩ := conflictsGet_record h hi
  exact genuine_conflictOf hof

/-- A submodule is always resolved to an id. -/
theorem Decided.takes {presses : Nat → List Press} {content : Option Bytes}
    (h : Decided env setup fc presses content) (hfc : Genuine fc) : fc.Takes content := by
  intro htype
  cases h with
  | chosen lines picks eq =>
      obtain ⟨ours, theirs, hhunks⟩ := hfc htype
      rw [hhunks] at picks
      obtain ⟨id, hid⟩ : ∃ id, lines = [stringFromId id] := by
        cases picks with
        | normal htype => cases htype
        | conflict left htype press rest =>
            cases rest
            cases setup.side fc left with
            | ours => exact ⟨ours, rfl⟩
            | theirs => exact ⟨theirs, rfl⟩
      subst hid
      refine ⟨stringFromId id, id, ?_, idFromString_stringFromId id⟩
      rw [eq]
      simp [joinLines]
  | edited k turns text opened press run eq =>
      obtain ⟨_, _, _, _, edited, -, -, -, htaken⟩ := EditEnv.editLoop_ok_iff.mp run
      obtain ⟨id, hid, -⟩ := htaken.commit htype
      have hfile : ∀ side, fc.noFile side = false := by
        intro side
        simp [Conflict.noFile, htype]
      refine ⟨text, id, ?_, hid⟩
      rw [eq, hfile, hfile, Bool.or_self, Bool.and_false, if_neg Bool.false_ne_true]

end Pressed

/-! ## What the resolution leaves -/

section Ends

variable {σ : Type} {env : EditEnv} {repo : Git.Repo σ} {setup : PanelSetup}
  {presses : Nat → Nat → List Press}

/-- The state that the first conflicts of a resolution leave, from the `j`-th conflict on. -/
def stateAfter (env : EditEnv) (repo : Git.Repo σ) (setup : PanelSetup)
    (presses : Nat → Nat → List Press) (j conflictIdx : Nat) (fcs : List Conflict) (index : Index)
    (s : σ) : σ :=
  (resolveLoop env repo setup presses j conflictIdx fcs index s).state

/-- The resolution has done its work on the index: no conflict is left, each of the conflicts is
resolved to what is decided in its panels, in the state that its resolution left, and no other path
is changed. -/
structure Resolved (env : EditEnv) (repo : Git.Repo σ) (setup : PanelSetup)
    (presses : Nat → Nat → List Press) (j conflictIdx : Nat) (fcs : List Conflict)
    (index index' : Index) (s : σ) : Prop where
  conflicts : index'.conflicts = false
  resolved : ∀ k fc, fcs[k]? = some fc →
    ∃ content, Decided env setup fc (presses (j + k)) content ∧ fc.ResolvedTo repo content index'
      (stateAfter env repo setup presses j conflictIdx (fcs.take (k + 1)) index s)
  others : ∀ path ∉ fcs.map Conflict.path, index'.entriesAt path = index.entriesAt path

/-- What a resolution throws, once the conflicts before are decided: what is pressed in the panels
of a file, or that the file cannot be removed because its path has no second entry. -/
def Fails (env : EditEnv) (setup : PanelSetup) (presses : Nat → Nat → List Press) (j : Nat)
    (fcs : List Conflict) (index : Index) (e : Exn) : Prop :=
  ∃ k fc, fcs[k]? = some fc ∧
    (∀ i < k, ∀ before, fcs[i]? = some before →
      ∃ content, Decided env setup before (presses (j + i)) content) ∧
    (Throws env setup fc (presses (j + k)) e ∨
      (e = .gitError .notFound ∧ Decided env setup fc (presses (j + k)) none ∧
        (index.entriesAt fc.path).length < 2))

theorem Fails.cons {fc : Conflict} {fcs : List Conflict} {index index₁ : Index} {e : Exn} {j : Nat}
    {content : Option Bytes} (hdecided : Decided env setup fc (presses j) content)
    (hother : ∀ fc' ∈ fcs, index₁.entriesAt fc'.path = index.entriesAt fc'.path)
    (h : Fails env setup presses (j + 1) fcs index₁ e) :
    Fails env setup presses j (fc :: fcs) index e := by
  have hindex : ∀ k, j + 1 + k = j + (k + 1) := fun k => by omega
  obtain ⟨k, fc', hfc', hbefore, hfails⟩ := h
  rw [hother fc' (List.mem_of_getElem? hfc'), hindex] at hfails
  refine ⟨k + 1, fc', hfc', fun i hi before hi' => ?_, hfails⟩
  cases i with
  | zero =>
      cases hi'
      exact ⟨content, hdecided⟩
  | succ i =>
      rw [← hindex]
      exact hbefore i (by omega) before hi'

/-- What the first file is resolved to is still there after the others. -/
theorem Resolved.cons {fc : Conflict} {fcs : List Conflict} {index index₁ index' : Index}
    {content : Option Bytes} {j conflictIdx : Nat} {s s₁ : σ}
    (hrun : (runConflictPanel env setup conflictIdx fc (presses j)).2 = .content content)
    (hres : conflictResolve repo index fc content s = (.ok index₁, s₁))
    (hdecided : Decided env setup fc (presses j) content)
    (hresolved : fc.ResolvedTo repo content index₁ s₁)
    (hsame : Index.SameElsewhere fc.path index index₁) (hpath : fc.path ∉ fcs.map Conflict.path)
    (h : Resolved env repo setup presses (j + 1) (conflictIdx + fc.conflictCount) fcs index₁
      index' s₁) :
    Resolved env repo setup presses j conflictIdx (fc :: fcs) index index' s := by
  -- the conflicts after this one start in the state that it left
  have hstate : ∀ rest, stateAfter env repo setup presses j conflictIdx (fc :: rest) index s =
      stateAfter env repo setup presses (j + 1) (conflictIdx + fc.conflictCount) rest index₁ s₁ := by
    intro rest
    unfold stateAfter
    rw [resolveLoop]
    dsimp only
    rw [hrun]
    dsimp only
    rw [hres]
  obtain ⟨hconflicts, hrest, hothers⟩ := h
  refine ⟨hconflicts, fun k fc' hfc' => ?_, fun path hne => ?_⟩
  · cases k with
    | zero =>
        cases hfc'
        refine ⟨content, hdecided, ?_⟩
        rw [List.take_succ_cons, hstate]
        -- the conflicts after this one are at other paths
        unfold Conflict.ResolvedTo at hresolved ⊢
        rw [hothers fc.path hpath]
        exact hresolved
    | succ k =>
        obtain ⟨content', hdecided', hresolved'⟩ := hrest k fc' hfc'
        rw [show j + 1 + k = j + (k + 1) by omega] at hdecided'
        refine ⟨content', hdecided', ?_⟩
        rw [List.take_succ_cons, hstate]
        exact hresolved'
  · rw [List.map_cons, List.mem_cons, not_or] at hne
    rw [hothers path hne.2, hsame.entriesAt hne.1]

theorem resolveLoop_ends (hstores : repo.StoresBlobs) {fcs : List Conflict} {index : Index}
    (hconflicted : index.Conflicted fcs) (hsorted : index.Sorted)
    (hgenuine : ∀ fc ∈ fcs, Genuine fc) (j conflictIdx : Nat) (s : σ) :
    (∀ index', (resolveLoop env repo setup presses j conflictIdx fcs index s).outcome =
        .returned index' → Resolved env repo setup presses j conflictIdx fcs index index' s) ∧
      ∀ e, (resolveLoop env repo setup presses j conflictIdx fcs index s).outcome = .threw e →
        Fails env setup presses j fcs index e := by
  induction fcs generalizing index j conflictIdx s with
  | nil =>
      constructor
      · intro index' h
        cases h
        exact ⟨hconflicted.conflicts_eq_false,
          fun k fc hfc => (Option.some_ne_none fc hfc.symm).elim, fun _ _ => rfl⟩
      · intro e h
        cases h
  | cons fc fcs ih =>
      have hnothing : ∀ i < 0, ∀ before, (fc :: fcs)[i]? = some before →
          ∃ content, Decided env setup before (presses (j + i)) content :=
        fun i hi => absurd hi (Nat.not_lt_zero i)
      unfold resolveLoop
      dsimp only
      rcases @runConflictPanel_cases env setup fc conflictIdx (presses j) with
        ⟨content, hdecided, hrun⟩ | ⟨e, he, hrun⟩ | hrun
      · rw [hrun]
        dsimp only
        have hfirst := hdecided.takes (hgenuine fc List.mem_cons_self)
        have hpaths := hconflicted.paths
        rw [List.map_cons, List.nodup_cons] at hpaths
        rcases conflictResolve_cases hstores (hconflicted.sides fc List.mem_cons_self) hsorted
            hfirst s with ⟨-, index₁, s₁, hres, hresolved, hsame⟩ | ⟨hnot, hres⟩
        · rw [hres]
          dsimp only
          obtain ⟨hreturned, hthrew⟩ := ih (hconflicted.resolved hsame hresolved)
            (hsorted.resolved hsame hresolved)
            (fun fc' hfc' => hgenuine fc' (List.mem_cons_of_mem _ hfc')) (j + 1)
            (conflictIdx + fc.conflictCount) s₁
          have hother : ∀ fc' ∈ fcs, fc'.path ≠ fc.path := fun fc' hfc' heq =>
            hpaths.1 (heq ▸ List.mem_map_of_mem hfc')
          constructor
          · intro index' h
            exact .cons hrun hres hdecided hresolved hsame hpaths.1 (hreturned index' h)
          · intro e h
            exact (hthrew e h).cons hdecided fun fc' hfc' => hsame.entriesAt (hother fc' hfc')
        · rw [hres]
          dsimp only
          constructor
          · intro index' h
            cases h
          · intro e' h
            cases h
            -- the only resolution that fails is a removal that leaves nothing to clear
            obtain ⟨rfl, hentries⟩ := Conflict.not_clearable_iff.mp hnot
            exact ⟨0, fc, rfl, hnothing, Or.inr ⟨rfl, hdecided, hentries⟩⟩
      · rw [hrun]
        constructor
        · intro index' h
          cases h
        · intro e' h
          cases h
          exact ⟨0, fc, rfl, hnothing, Or.inl he⟩
      · rw [hrun]
        constructor
        · intro index' h
          cases h
        · intro e h
          cases h

end Ends

namespace TwoDeleted

/-- Ours has deleted two files, theirs has changed them. -/
def index : Index :=
  ⟨[⟨[ascii "a.c"], .ancestor, 0o100644, 0⟩, ⟨[ascii "a.c"], .theirs, 0o100644, 1⟩,
    ⟨[ascii "b.c"], .ancestor, 0o100644, 0⟩, ⟨[ascii "b.c"], .theirs, 0o100644, 1⟩]⟩

def conflicts : List Conflict :=
  [⟨.file, [ascii "a.c"], [.ofConflict [] [ascii "y", []]]⟩,
    ⟨.file, [ascii "b.c"], [.ofConflict [] [ascii "y", []]]⟩]

def main : Rev := ⟨⟨.mk ⟨0⟩ [] ⟨⟨[], [], ⟨0, 0⟩⟩, ⟨[], [], ⟨0, 0⟩⟩, none, [], []⟩, none⟩, 0, .allowed⟩

def env : EditEnv := ⟨fun s => s, .plain, fun _ => .ok (), fun _ _ => true⟩

/-- The deletion of the first file is kept.  Of the second one the editor leaves the markers at
first, and the user goes on. -/
def presses (j _ : Nat) : List Press :=
  if j = 0 then [.choose true]
  else [.openInEditor [⟨fun content => .ok content, true⟩, ⟨fun _ => .ok (ascii "z\n"), false⟩]]

def resolution : Resolution (List (Oid × Bytes)) :=
  gitConflictsResolve env blobStore (fun _ => 0) [main] main none presses index conflicts
    Deleted.blobs

end TwoDeleted

end App
end Debase
