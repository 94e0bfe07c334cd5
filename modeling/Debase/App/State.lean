import Mathlib.Data.Finset.Option
import Mathlib.Data.Finset.SymmDiff
import Mathlib.Data.Finset.Union
import Debase.Git.Refs
import Debase.Git.World
import Debase.State.Sessions
import Debase.Ui.Drop

/-!
# The application

`App.h`: the state of a session and what the user's actions do to it.  `App` has
the repository next to the fields of the class; the panels of a column are a part
of its `RevColumn`.  Dialogs, the mouse and everything that is only drawn is left
out: an action says what the user chose.
-/

namespace Debase

open Git Library

/-- `App`, with the refs of its repository and the state of everything outside. -/
structure App (κ ω : Type) where
  repo : Repository
  repoState : State.LoadedRefs κ
  revs : List Rev
  columns : List Ui.RevColumn
  size : Ui.Size
  head : Option GitRev
  headReattach : Bool
  selection : Ui.Selection
  outside : ω

/-- `(Git::Rev&)rev = x`. -/
def Rev.assign (rev : Rev) (x : GitRev) : Rev := { rev with toGitRev := x }

/-- `Rev::operator ==`. -/
def Rev.same (a b : Rev) : Bool :=
  a.commit = b.commit && Ref.same a.ref b.ref && a.skip = b.skip && a.mutability = b.mutability

/-- `Rev::operator ==` on revs that may be invalid. -/
def sameRev : Option Rev → Option Rev → Bool
  | none, none => true
  | some a, some b => a.same b
  | _, _ => false

/-- `Git::Rev(Ref ref)`. -/
def Git.GitRev.ofRef (ref : Ref) : GitRev := ⟨ref.commit, some ref⟩

namespace App

/-- What surrounds a session. -/
structure Env (κ ω : Type) where
  ids : State.CommitIds κ
  /-- The text of an id, for messages. -/
  idText (id : κ) : String
  names : RefNames
  /-- `Git::Error::what()`. -/
  what (code : ErrorCode) : String
  /-- The height of the panel of a commit. -/
  height (commit : Commit) : Int
  repo : Git.Repo ω
  spawn (content : Bytes) : Program ω Exn Bytes
  conflictsResolve (index : Index) (conflicts : List Conflict) : Program ω Exn Index
  trim (s : Bytes) : Bytes
  strings : Toastbox.Strings

/-- What the outside contributes to one action: the call that fails, the commits of
a stored selection that are not found, and the time. -/
structure Inputs (κ : Type) where
  fault : Fault
  missing (id : κ) : Bool
  now : Int

/-- `_ColumnInsetX`. -/
def columnInsetX : Int := 3

/-- `_ColumnWidth`. -/
def columnWidth : Int := 32

/-- `_ColumnSpacing`. -/
def columnSpacing : Int := 6

section Methods

variable {κ ω : Type} [DecidableEq κ] (env : Env κ ω) (inputs : Inputs κ)

/-- Run a method of the repository. -/
def inRepo {α : Type} (x : Program Repository Exn α) : Program (App κ ω) Exn α :=
  x.zoom App.repo fun repo app => { app with repo := repo }

/-! ## Histories -/

/-- What `_loadRef` leaves behind. -/
def load (app : App κ ω) (ref : Ref) : App κ ω :=
  { app with
    repoState := State.loadRef env.ids (fun _ => none) inputs.now app.repoState ref none }

/-- Load the history of a rev that has a ref. -/
def loadRev (app : App κ ω) (rev : Rev) : App κ ω :=
  match rev.ref with
  | some ref => app.load env inputs ref
  | none => app

/-- What `_loadRef` returns. -/
def loaded (app : App κ ω) (ref : Ref) : State.LoadedRef κ :=
  (app.repoState ref.fullName).getD
    (State.loadedRef env.ids (fun _ => none) inputs.now ref none)

/-- `_loadRef`. -/
def loadRef (ref : Ref) : Program (App κ ω) Exn (State.LoadedRef κ) := do
  let app ← Program.read
  Program.update fun app => app.load env inputs ref
  pure (app.loaded env inputs ref)

/-- Change a loaded ref. -/
def setLoaded (ref : Ref) (lref : State.LoadedRef κ) : Program (App κ ω) Exn Unit :=
  Program.update fun app =>
    { app with repoState := Function.update app.repoState ref.fullName (some lref) }

/-- `_repoState.history(ref).push(refState)`. -/
def historyPush (ref : Ref) (refState : State.HistoryRefState κ) : Program (App κ ω) Exn Unit := do
  let lref ← loadRef env inputs ref
  setLoaded ref (lref.setHistory (lref.history.push refState))

/-- `_repoState.snapshotInitialPush(ref)`. -/
def snapshotInitialPush (ref : Ref) : Program (App κ ω) Exn Unit := do
  let lref ← loadRef env inputs ref
  setLoaded ref (lref.snapshotInitialPush env.ids)

/-- `_repoState.refReplace(refPrev, ref)`. -/
def repoStateRefReplace (refPrev ref : Ref) : Program (App κ ω) Exn Unit := do
  let app ← Program.read
  if refPrev.fullName = ref.fullName then .fail .abort
  else
    match State.refReplace app.repoState refPrev.fullName ref.fullName with
    | none => .fail (.runtimeError "map::at")
    | some repoState => Program.update fun app => { app with repoState := repoState }

/-! ## Reloading -/

/-- The loop of `_reload` over the revs: `done` are reloaded already. -/
def reloadRevs : List Rev → List Rev → Program (App κ ω) Exn Unit
  | _, [] => pure ()
  | done, rev :: todo => do
      let x ← inRepo (revReload inputs.fault (.revReload done.length) rev.toGitRev)
      Program.update fun app => { app with revs := done ++ rev.assign x :: todo }
      reloadRevs (done ++ [rev.assign x]) todo

/-- The history of a rev that has a ref, if it is loaded. -/
def historyOf (app : App κ ω) (rev : Rev) : Option (State.History (State.HistoryRefState κ)) :=
  (rev.ref.bind fun ref => app.repoState ref.fullName).map State.LoadedRef.history

/-- The loop of `_reload` that makes the columns: the history of a rev is loaded
before its column turns out not to fit. -/
def reloadColumns : List Rev → Int → Nat → App κ ω → App κ ω
  | [], _, count, app => { app with columns := app.columns.take count }
  | rev :: revs, offX, count, app =>
      let app := app.loadRev env inputs rev
      if app.size.x - offX < columnWidth then { app with columns := app.columns.take count }
      else
        let panels := ((app.columns[count]?).map Ui.RevColumn.panels).getD []
        let h := app.historyOf rev
        let col : Ui.RevColumn :=
          { rev := rev
            frame := ⟨⟨offX, 0⟩, ⟨columnWidth, app.size.y⟩⟩
            panels := panels
            undoEnabled := h.any fun h => !h.atBegin
            redoEnabled := h.any fun h => !h.atEnd }
        reloadColumns revs (offX + columnWidth + columnSpacing) (count + 1)
          { app with
            columns :=
              app.columns.take count ++ col.reload env.height :: app.columns.drop (count + 1) }

/-- The first step of `_reload`; there is no `_head` once its ref was deleted. -/
def reloadHead : Program (App κ ω) Exn Unit := do
  let app ← Program.read
  match app.head with
  | none => pure ()
  | some head => do
      let head ← inRepo (revReload inputs.fault .headReload head)
      Program.update fun app => { app with head := some head }

/-- `_reload`. -/
def reload : Program (App κ ω) Exn Unit := do
  reloadHead inputs
  let app ← Program.read
  reloadRevs inputs [] app.revs
  Program.update fun app => reloadColumns env inputs app.revs columnInsetX 0 app

/-! ## Changing refs -/

/-- `_gitDetachHeadIfEqual`. -/
def gitDetachHeadIfEqual (ref : Ref) : Program (App κ ω) Exn Bool := do
  let app ← Program.read
  if !Ref.same (app.head.bind GitRev.ref) (some ref) then pure false
  else do
    if !app.headReattach then do
      Program.update fun app => { app with headReattach := true }
      inRepo (headDetach inputs.fault)
    pure true

/-- `_gitRefReplace`. -/
def gitRefReplace (ref : Ref) (commit : Commit) : Program (App κ ω) Exn Ref := do
  let _ ← gitDetachHeadIfEqual inputs ref
  inRepo (refReplace env.names inputs.fault ref commit)

/-- A rev after its ref was renamed; its commit is reloaded later. -/
def revRenamed (refPrev ref : Ref) (rev : Rev) : Rev :=
  if Ref.same rev.ref (some refPrev) then { rev with ref := some ref } else rev

/-- The selection after a ref was renamed. -/
def selectionRenamed (refPrev ref : Ref) (selection : Ui.Selection) : Ui.Selection :=
  { selection with
    rev := selection.rev.map fun rev =>
      if Ref.same rev.ref (some refPrev) then rev.assign (.ofRef ref) else rev }

/-- `_gitRefRename`. -/
def gitRefRename (refPrev : Ref) (name : Bytes) : Program (App κ ω) Exn Ref := do
  let ref ← inRepo (refCopy env.names inputs.fault refPrev name none)
  Program.update fun app => { app with revs := app.revs.map (revRenamed refPrev ref) }
  repoStateRefReplace refPrev ref
  let wasHead ← gitDetachHeadIfEqual inputs refPrev
  if wasHead then
    Program.update fun app =>
      { app with head := app.head.map fun head => { head with ref := some ref } }
  Program.update fun app => { app with selection := selectionRenamed refPrev ref app.selection }
  inRepo (reflogRememberRef inputs.fault ref)
  inRepo (refDelete inputs.fault refPrev)
  pure ref

/-- The selection after a ref was deleted. -/
def selectionDeleted (ref : Ref) (selection : Ui.Selection) : Ui.Selection :=
  if Ref.same (selection.rev.bind fun rev => rev.ref) (some ref) then ⟨none, ∅⟩ else selection

/-- `_gitRefDelete`. -/
def gitRefDelete (ref : Ref) : Program (App κ ω) Exn Unit := do
  Program.update fun app =>
    { app with
      revs := app.revs.filter fun rev => !Ref.same rev.ref (some ref)
      repoState := State.refRemove app.repoState ref.fullName }
  let wasHead ← gitDetachHeadIfEqual inputs ref
  if wasHead then Program.update fun app => { app with head := none }
  Program.update fun app => { app with selection := selectionDeleted ref app.selection }
  inRepo (refDelete inputs.fault ref)

/-! ## Undo, redo and snapshots -/

/-- `State::Convert(_repo, refState.head)` inside `_refStateRestore`. -/
def headLookup (id : κ) : Program (App κ ω) Exn Commit :=
  let error : Exn := .runtimeError ("failed to find commit " ++ env.idText id)
  (do
    call inputs.fault .commitLookup
    match env.ids.commit id with
    | some commit => pure commit
    | none => .fail error).handle fun _ => .fail error

/-- The commits of a stored selection (`State::Convert`), which must all be found. -/
def selectionLookup (selection : Finset κ) : Program (App κ ω) Exn (Finset Commit) :=
  let found (id : κ) : Option Commit := if inputs.missing id then none else env.ids.commit id
  if ∀ id ∈ selection, (found id).isSome then
    pure (selection.biUnion fun id => (found id).toFinset)
  else .fail (.gitError .notFound)

/-- `_refStateRestore`. -/
def refStateRestore (refPrev : Ref) (refState : State.RefState κ) :
    Program (App κ ω) Exn Ref := do
  let commit ← headLookup env inputs refState.head
  let ref ← if refPrev.commit ≠ commit then gitRefReplace env inputs refPrev commit else pure refPrev
  if ref.name ≠ refState.name then gitRefRename env inputs ref refState.name else pure ref

/-- `e.what()`. -/
def what : Exn → String
  | .conflictResolveCanceled => "std::exception"
  | .runtimeError msg => msg
  | .gitError code => env.what code
  | .abort => ""

/-- The body of the `try` block of `_undoRedo`. -/
def undoRedoBody (rev : Rev) (ref : Ref) (undo : Bool) (refStatePrev refState :
    State.HistoryRefState κ) : Program (App κ ω) Exn Unit := do
  let ref ← refStateRestore env inputs ref refState.refState
  let selection ← selectionLookup env inputs
    (if undo then refStatePrev.selectionPrev else refState.selection)
  Program.update fun app =>
    { app with selection := ⟨some (rev.assign (.ofRef ref)), selection⟩ }
  let lref ← loadRef env inputs ref
  match if undo then lref.history.prev else lref.history.next with
  | none => .fail .abort
  | some h => setLoaded ref (lref.setHistory h)
  snapshotInitialPush env inputs ref

/-- `_undoRedo`. -/
def undoRedo (rev : Rev) (undo : Bool) : Program (App κ ω) Exn Unit :=
  match rev.ref with
  | none => .fail .abort
  | some ref => do
      let lref ← loadRef env inputs ref
      match if undo then lref.history.prevPeek else lref.history.nextPeek with
      | none => .fail .abort
      | some refState =>
          (undoRedoBody env inputs rev ref undo lref.history.current refState).handle fun e =>
            if e = .abort then .fail .abort
            else if undo then .fail (.runtimeError ("undo failed: " ++ what env e))
            else .fail (.runtimeError ("redo failed: " ++ what env e))
      reload env inputs

/-- The snapshot behind a button of the snapshots menu: `none` is the first one,
the state at session start. -/
def snapshotChosen (lref : State.LoadedRef κ) : Option Nat → Option (State.Snapshot κ)
  | none => some lref.snapshotInitial
  | some i => lref.refState.snapshots[i]?

/-- The end of `_trackSnapshotsMenu`: a snapshot was chosen. -/
def snapshotRestore (ref : Ref) (choice : Option Nat) : Program (App κ ω) Exn Unit := do
  let lref ← loadRef env inputs ref
  match snapshotChosen lref choice with
  | none => pure ()
  | some snapshot =>
      if snapshot.refState = lref.history.current.refState then pure ()
      else do
        let ref ← refStateRestore env inputs ref snapshot.refState
        historyPush env inputs ref (.ofRef env.ids ref)
        snapshotInitialPush env inputs ref
        Program.update fun app => { app with selection := ⟨none, ∅⟩ }
        reload env inputs

/-! ## Renaming, deleting and creating refs -/

/-- The `try` block of `_revColumnNameSetFocused`. -/
def refRename (ref : Ref) (name : Bytes) : Program (App κ ω) Exn Unit := do
  let ref ← gitRefRename env inputs ref name
  historyPush env inputs ref (.ofRef env.ids ref)
  snapshotInitialPush env inputs ref
  reload env inputs

/-- The confirmed deletion of `_trackContextMenuRevNameField`. -/
def refRemove (ref : Ref) : Program (App κ ω) Exn Unit := do
  gitRefDelete inputs ref
  reload env inputs

/-- The names that `_revCreate` tries: with the suffixes 2 to 20, and without a
suffix first unless one is required. -/
def candidates (name : Bytes) (suffixRequired : Bool) : List Bytes :=
  ((List.range 20).drop (if suffixRequired then 1 else 0)).map fun i =>
    if i = 0 then name
    else
      let digit := name.getLast?.any fun b => 48 ≤ b && b ≤ 57
      name ++ (if digit then ascii "-" else []) ++ ascii (toString (i + 1))

/-- The loop of `_revCreate`. -/
def createFirst (create : Bytes → Program Repository Exn Ref) :
    List Bytes → Program Repository Exn Ref
  | [] => .fail (.runtimeError "failed to find an unused ref name")
  | name :: names =>
      (create name).handle fun e =>
        if e = .gitError .exists then createFirst create names else .fail e

/-- `_revCreate`; `branch` is `_RevCreateType::Branch`. -/
def revCreate (branch : Bool) (template : Rev) (commit : Commit) : Program (App κ ω) Exn Unit := do
  let name ←
    match template.ref with
    | none => pure (ascii "NewBranch")
    | some ref =>
        if ref.isBranch then inRepo (branchNameLocal env.names inputs.fault ref)
        else pure ref.name
  if name = [] then .fail .abort
  else do
    let create := fun fullName =>
      match branch, template.ref with
      | false, some ref => refCopy env.names inputs.fault ref fullName (some commit)
      | _, _ => branchCreate env.names inputs.fault fullName commit false
    let ref ← inRepo (createFirst create (candidates name template.ref.isSome))
    inRepo (reflogRememberRef inputs.fault ref)
    let rev : Rev := ⟨.ofRef ref, 0, .allowed⟩
    let app ← Program.read
    match app.revs.findIdx? (Rev.same template) with
    | none => .fail .abort
    | some i => do
        Program.update fun app =>
          { app with
            revs := app.revs.insertIdx (i + 1) rev
            selection := ⟨some rev, {commit}⟩ }
        reload env inputs

/-! ## Commit operations -/

/-- The context of `_gitOpExec`. -/
def gitCtx : Ctx (App κ ω) where
  repo := env.repo.zoom App.outside fun o app => { app with outside := o }
  refReplace := gitRefReplace env inputs
  refPeel ref := call inputs.fault (.refPeel ref.fullName)
  spawn content := (env.spawn content).zoom App.outside fun o app => { app with outside := o }
  conflictsResolve index conflicts :=
    (env.conflictsResolve index conflicts).zoom App.outside fun o app => { app with outside := o }
  trim := env.trim
  strings := env.strings

/-- Whether a rev has a ref. -/
def hasRef (rev : Option Rev) : Bool := (rev.bind fun rev => rev.ref).isSome

/-- Push the new state of a ref that an operation was to rewrite, if its commit
changed. -/
def opPush (revPrev : Option Rev) (res : Modify.Res) : Program (App κ ω) Exn Unit :=
  match res.rev.bind fun rev => rev.ref with
  | none => pure ()
  | some ref => do
      let _ ← loadRef env inputs ref
      if res.rev.map (fun rev => rev.commit) = revPrev.map (fun rev => rev.commit) then pure ()
      else do
        historyPush env inputs ref
          { refState := .ofRef env.ids ref
            selection := res.selection.image env.ids.idStr
            selectionPrev := res.selectionPrev.image env.ids.idStr }
        snapshotInitialPush env inputs ref

/-- `_gitOpExec`. -/
def gitOpExec (op : Modify.Op) : Program (App κ ω) Exn Unit := do
  let result ← Modify.exec (gitCtx env inputs) op
  match result with
  | none => pure ()
  | some result =>
      if hasRef result.src.rev ≠ hasRef op.src.rev || hasRef result.dst.rev ≠ hasRef op.dst.rev then
        .fail .abort
      else do
        opPush env inputs op.src.rev result.src
        opPush env inputs op.dst.rev result.dst
        Program.update fun app =>
          { app with
            selection :=
              if result.dst.rev.isSome then ⟨result.dst.rev, result.dst.selection⟩
              else ⟨result.src.rev, result.src.selection⟩ }
        reload env inputs

/-! ## Actions -/

/-- What the user does.  Columns are given by their place from the left. -/
inductive Action where
  /-- The window has a new size. -/
  | resize (size : Ui.Size)
  /-- Panels of a column are clicked or caught by the selection rectangle. -/
  | select (col : Nat) (commits : Finset Commit) (shift : Bool)
  | deselect
  /-- The selection is dropped on a column, above the panel of `position`. -/
  | drop (col : Nat) (position : Option Commit) (copy : Bool)
  | deleteCommits
  | combine
  | edit
  | undo (col : Nat)
  | redo (col : Nat)
  | restore (col : Nat) (snapshot : Option Nat)
  | rename (col : Nat) (name : Bytes)
  | remove (col : Nat)
  | duplicate (col : Nat)
  /-- A branch at the selected commit, for the selected rev or for a column. -/
  | branch (col : Option Nat)
deriving DecidableEq

variable (app : App κ ω)

/-- The rev of a column. -/
def colRev (i : Nat) : Option Rev := (app.columns[i]?).map fun col => col.rev

/-- The ref of a column that may be changed. -/
def colRef (i : Nat) : Option Ref :=
  match app.colRev i with
  | none => none
  | some rev => if rev.isMutable then rev.ref else none

/-- Whether the rev of the selection may be changed. -/
def selectionIsMutable : Bool := app.selection.rev.any Rev.isMutable

/-- Whether a column can undo (or redo): its button is shown and enabled. -/
def canUndoRedo (i : Nat) (undo : Bool) : Bool :=
  match (app.colRef i).bind fun ref => app.repoState ref.fullName with
  | none => false
  | some lref => (if undo then lref.history.prevPeek else lref.history.nextPeek).isSome

/-- Whether the user interface offers an action. -/
def offers : Action → Bool
  | .resize _ => true
  | .select i commits _ =>
      commits ≠ ∅ && (app.columns[i]?).any fun col => ∀ c ∈ commits, c ∈ col.panels
  | .deselect => true
  | .drop i position copy =>
      app.selection.commits ≠ ∅ && app.selection.rev.isSome &&
        (app.colRef i).isSome && (copy || app.selectionIsMutable) &&
        (app.columns[i]?).any fun col => position.all fun c => c ∈ col.panels
  | .deleteCommits => app.selection.commits ≠ ∅ && app.selectionIsMutable
  | .combine =>
      app.selectionIsMutable && 1 < app.selection.commits.card &&
        ∀ c ∈ app.selection.commits, !c.isMerge
  | .edit => app.selectionIsMutable && app.selection.commits.card = 1
  | .undo i => app.canUndoRedo i true
  | .redo i => app.canUndoRedo i false
  | .restore i _ => (app.colRef i).isSome
  | .rename i name => (app.colRef i).any fun ref => name ≠ ref.name
  | .remove i => (app.colRef i).isSome
  | .duplicate i => (app.colRev i).isSome
  | .branch none => app.selection.rev.isSome && app.selection.commits.card = 1
  | .branch (some i) => (app.colRev i).isSome && app.selection.commits.card = 1

/-- The selection after panels were clicked or caught by the rectangle. -/
def selectionSelected (new : Ui.Selection) (shift : Bool) : Ui.Selection :=
  if shift && (new.commits = ∅ || sameRev app.selection.rev new.rev) then
    ⟨app.selection.rev, symmDiff app.selection.commits new.commits⟩
  else new

/-- The operation on the selection alone. -/
def selectionOp (type : Modify.OpType) : Modify.Op :=
  ⟨type, ⟨app.selection.rev, app.selection.commits⟩, {}⟩

/-- Use a column that is there. -/
def withRev {α : Type} (rev : Option α) (f : α → Program (App κ ω) Exn Unit) :
    Program (App κ ω) Exn Unit :=
  match rev with
  | none => .fail .abort
  | some rev => f rev

/-- Do what the user chose. -/
def perform (action : Action) : Program (App κ ω) Exn Unit := do
  let app ← Program.read
  match action with
  | .resize size => do
      Program.update fun app => { app with size := size }
      reload env inputs
  | .select i commits shift =>
      Program.update fun app =>
        { app with selection := app.selectionSelected ⟨app.colRev i, commits⟩ shift }
  | .deselect => Program.update fun app => { app with selection := ⟨none, ∅⟩ }
  | .drop i position copy =>
      gitOpExec env inputs
        ⟨if copy then .copy else .move, ⟨app.selection.rev, app.selection.commits⟩,
          ⟨app.colRev i, position⟩⟩
  | .deleteCommits => gitOpExec env inputs (app.selectionOp .delete)
  | .combine => gitOpExec env inputs (app.selectionOp .combine)
  | .edit => gitOpExec env inputs (app.selectionOp .edit)
  | .undo i => withRev (app.colRev i) fun rev => undoRedo env inputs rev true
  | .redo i => withRev (app.colRev i) fun rev => undoRedo env inputs rev false
  | .restore i snapshot =>
      withRev (app.colRef i) fun ref => snapshotRestore env inputs ref snapshot
  | .rename i name => withRev (app.colRef i) fun ref => refRename env inputs ref name
  | .remove i => withRev (app.colRef i) fun ref => refRemove env inputs ref
  | .duplicate i => withRev (app.colRev i) fun rev => revCreate env inputs false rev rev.commit
  | .branch col =>
      withRev (match col with | none => app.selection.rev | some i => app.colRev i) fun rev =>
        withRev (theOnly app.selection.commits) fun commit =>
          revCreate env inputs true rev commit

/-! ## The start of a session -/

/-- The revs of a session: the ref that is checked out must not be changed while
there are uncommitted changes. -/
def sessionRev (dirty : Bool) (head : GitRev) (rev : Rev) : Rev :=
  if dirty && rev.ref.isSome && Ref.same rev.ref head.ref then
    { rev with mutability := .disallowedUncommittedChanges }
  else rev

/-- `run` up to the first `_reload`.  `lookup` is what `Convert` finds for the
stored heads, `reflogRev` what the last entry of the reflog names. -/
def start (repo : Repository) (revs : List Rev) (refStates : State.RefStates κ)
    (lookup : κ → Option Commit) (reflogRev : Option GitRev) (dirty : Bool) (size : Ui.Size)
    (outside : ω) : Option (App κ ω) :=
  (repo.headResolved reflogRev).map fun head =>
    { repo := repo
      repoState :=
        State.loadRefs env.ids lookup inputs.now refStates (revs.filterMap fun rev => rev.ref)
      revs := revs.map (sessionRev dirty head)
      columns := []
      size := size
      head := some head
      headReattach := false
      selection := ⟨none, ∅⟩
      outside := outside }

end Methods

/-! ## What an action works on -/

section Offered

variable {κ ω : Type} {app : App κ ω} {i : Nat} {ref : Ref} {rev : Rev}

/-- A rev that may be changed has a ref that may be changed. -/
theorem isMutable_of_rev (h : rev.isMutable = true) (href : rev.ref = some ref) :
    ref.isMutable = true := by
  have hgit : rev.toGitRev.isMutable = true := (Bool.and_eq_true_iff.mp h).2
  unfold GitRev.isMutable at hgit
  rw [href] at hgit
  exact hgit

/-- The ref of a column that may be changed is the ref of its rev. -/
theorem rev_of_colRef (hcol : app.colRef i = some ref) :
    ∃ col ∈ app.columns, app.colRev i = some col.rev ∧ col.rev.ref = some ref ∧
      col.rev.isMutable = true := by
  unfold colRef at hcol
  cases hrev : app.colRev i with
  | none =>
      rw [hrev] at hcol
      cases hcol
  | some rev =>
      rw [hrev] at hcol
      dsimp only at hcol
      obtain ⟨col, hget, rfl⟩ := Option.map_eq_some_iff.mp hrev
      split at hcol
      · next hmutable => exact ⟨col, List.mem_of_getElem? hget, rfl, hcol, hmutable⟩
      · cases hcol

theorem rev_of_selectionIsMutable (h : app.selectionIsMutable = true)
    (hrev : app.selection.rev = some rev) : rev.isMutable = true := by
  unfold selectionIsMutable at h
  rw [hrev] at h
  exact h

/-- A column that can undo or redo has a ref that may be changed. -/
theorem colRef_of_canUndoRedo {undo : Bool} (h : app.canUndoRedo i undo = true) :
    ∃ ref, app.colRef i = some ref := by
  cases hcol : app.colRef i with
  | none => simp [canUndoRedo, hcol] at h
  | some ref => exact ⟨ref, rfl⟩

theorem colRef_of_rename {name : Bytes} (h : app.offers (.rename i name) = true) :
    ∃ ref, app.colRef i = some ref := by
  cases hcol : app.colRef i with
  | none => simp [offers, hcol] at h
  | some ref => exact ⟨ref, rfl⟩

end Offered

/-! ## Plain surroundings -/

/-- Surroundings where no call fails, ids are the commits themselves, and panels have a
height of one line. -/
def plainEnv : Env (Option Commit) Unit where
  ids := TwoSessions.ids
  idText _ := ""
  names := plainNames
  what _ := ""
  height _ := 1
  repo := wholeTreeRepo
  spawn _ := pure []
  conflictsResolve index _ := pure index
  trim := (Git.plainEnv []).trim
  strings := .plain

/-- No call fails, and every stored id is found. -/
def noFault {κ : Type} : Inputs κ := ⟨none, fun _ => false, 0⟩

/-- A session at its start, with these revs. -/
def plainApp (repo : Repository) (head : Option GitRev) (revs : List Rev) :
    App (Option Commit) Unit where
  repo := repo
  repoState _ := none
  revs := revs
  columns := []
  size := ⟨100, 10⟩
  head := head
  headReattach := false
  selection := ⟨none, ∅⟩
  outside := ()

end App
end Debase
