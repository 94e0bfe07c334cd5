import Debase.App.Recorded

/-!
# Actions on the ref of a column

Undo, redo, restoring a snapshot and renaming: the ref of a column moves, its
history follows, and `_reload` makes the rest of the session current again.
-/

namespace Debase

open Git Library

namespace State

@[simp] theorem LoadedRef.history_snapshotInitialPush {κ : Type} [DecidableEq κ] (ids : CommitIds κ)
    (lref : LoadedRef κ) : (lref.snapshotInitialPush ids).history = lref.history := by
  unfold LoadedRef.snapshotInitialPush LoadedRef.history
  split
  · rfl
  · rfl

end State

namespace App

variable {κ ω : Type}

section Methods

variable [DecidableEq κ] {env : Env κ ω} {inputs : Inputs κ} {app app₁ : App κ ω}

/-! ## Changing a loaded history -/

/-- Assign to the entry of a loaded ref. -/
def withLoaded (app : App κ ω) (k : Bytes) (lref : State.LoadedRef κ) : App κ ω :=
  { app with repoState := Function.update app.repoState k (some lref) }

omit [DecidableEq κ] in
@[simp] theorem repoState_withLoaded (k : Bytes) (lref : State.LoadedRef κ) :
    (app.withLoaded k lref).repoState k = some lref := Function.update_self _ _ _

omit [DecidableEq κ] in
@[simp] theorem withLoaded_withLoaded (k : Bytes) (lref lref' : State.LoadedRef κ) :
    (app.withLoaded k lref).withLoaded k lref' = app.withLoaded k lref' := by
  simp [withLoaded]

theorem loadRef_ends {ref : Ref} {lref : State.LoadedRef κ}
    (h : app.repoState ref.fullName = some lref) {Q : State.LoadedRef κ → App κ ω → Prop}
    {E : Exn → App κ ω → Prop} (hQ : Q lref app) :
    Program.Ends (loadRef env inputs ref) app Q E := by
  have hload : app.load env inputs ref = app := load_of_loaded (by rw [h, Option.isSome_some])
  unfold loadRef loaded
  refine .bind (.read (.bind (.update (.pure ?_))))
  rw [hload, h]
  exact hQ

theorem historyPush_ends {ref : Ref} {lref : State.LoadedRef κ} {x : State.HistoryRefState κ}
    (h : app.repoState ref.fullName = some lref) {Q : Unit → App κ ω → Prop}
    {E : Exn → App κ ω → Prop}
    (hQ : Q () (app.withLoaded ref.fullName (lref.setHistory (lref.history.push x)))) :
    Program.Ends (historyPush env inputs ref x) app Q E :=
  .bind (loadRef_ends h (.update hQ))

theorem snapshotInitialPush_ends {ref : Ref} {lref : State.LoadedRef κ}
    (h : app.repoState ref.fullName = some lref) {Q : Unit → App κ ω → Prop}
    {E : Exn → App κ ω → Prop}
    (hQ : Q () (app.withLoaded ref.fullName (lref.snapshotInitialPush env.ids))) :
    Program.Ends (snapshotInitialPush env inputs ref) app Q E :=
  .bind (loadRef_ends h (.update hQ))

/-! ## The ref of a column moves -/

omit [DecidableEq κ] in
/-- The ref of a column is a current handle, and its history is loaded. -/
theorem colRef_eq_some (h : Linked env app) {i : Nat} {ref : Ref} (hcol : app.colRef i = some ref) :
    ∃ rev lref, app.colRev i = some rev ∧ rev.ref = some ref ∧ ref.isMutable = true ∧
      app.repo.Current ref ∧ app.repoState ref.fullName = some lref := by
  obtain ⟨col, hmem, hrev, hrevRef, hmutable⟩ := rev_of_colRef hcol
  obtain ⟨lref, hlref⟩ := Option.isSome_iff_exists.mp (h.colLoaded col hmem ref hrevRef)
  exact ⟨col.rev, lref, hrev, hrevRef, isMutable_of_rev hmutable hrevRef,
    (h.colCurrent col hmem ref hrevRef).1, hlref⟩

omit [DecidableEq κ] in
/-- A lookup that does not concern the ref that moved is as before. -/
theorem Moved.lookup_of_isSome {k m : Bytes} {ref : Ref} (h : Moved app app₁ k ref)
    (hm : (app.repo.lookup m).isSome) (hne : m ≠ k) : app₁.repo.lookup m = app.repo.lookup m := by
  refine h.lookupOther m hne ?_
  rintro rfl
  have hnone := (h.lookupPrev (Ne.symm hne)).2
  rw [hnone] at hm
  cases hm

omit [DecidableEq κ] in
/-- A name that is followed still exists after the ref moved. -/
theorem Moved.isSome_renameIn {k m : Bytes} {name : Option Bytes} {ref : Ref}
    (h : Moved app app₁ k ref) (hname : renameIn k ref.fullName name = some m)
    (hexists : ∀ m', name = some m' → (app.repo.lookup m').isSome) :
    (app₁.repo.lookup m).isSome := by
  unfold renameIn at hname
  split at hname
  · cases hname
    rw [h.lookupSelf, Option.isSome_some]
  · next hne =>
      have hm := hexists m hname
      rw [h.lookup_of_isSome hm (fun heq => hne (heq ▸ hname))]
      exact hm

omit [DecidableEq κ] in
theorem Moved.repoState_of_ne {k m : Bytes} {ref : Ref} (h : Moved app app₁ k ref)
    (hm : m ≠ ref.fullName) :
    app₁.repoState m = if m = k then none else app.repoState m := by
  rw [h.repoState]
  unfold moveKey
  by_cases hk : k = ref.fullName
  · rw [if_pos hk, if_neg (hk ▸ hm)]
  · rw [if_neg hk]
    by_cases hmk : m = k
    · rw [if_pos hmk, hmk, Function.update_self]
    · rw [if_neg hmk, Function.update_of_ne hmk, Function.update_of_ne hm]

omit [DecidableEq κ] in
/-- The history of the ref that moved, under its new name. -/
theorem Moved.repoState_self {k : Bytes} {ref : Ref} (h : Moved app app₁ k ref) :
    app₁.repoState ref.fullName = app.repoState k := by
  rw [h.repoState]
  unfold moveKey
  by_cases hk : k = ref.fullName
  · rw [if_pos hk, hk]
  · rw [if_neg hk, Function.update_of_ne (Ne.symm hk), Function.update_self]

omit [DecidableEq κ] in
/-- Once the history of the ref that moved ends in its new state, `_reload` can make
everything current. -/
theorem Moved.reloadable (h : Linked env app) {k : Bytes} {ref : Ref}
    (hmoved : Moved app app₁ k ref) (hready : Ready env app₁) {lref : State.LoadedRef κ}
    (hlinked : HistoryLinked env app₁.repo ref.fullName lref) {selection : Ui.Selection}
    (hselection : ∀ rev, selection.rev = some rev → RevCurrent app₁.repo rev) :
    Reloadable env { app₁.withLoaded ref.fullName lref with selection := selection } :=
  { hready.congr rfl rfl rfl with
    loaded := by
      intro m lref' hm
      change Function.update app₁.repoState ref.fullName (some lref) m = some lref' at hm
      by_cases hself : m = ref.fullName
      · rw [hself, Function.update_self] at hm
        cases hm
        exact hself ▸ hlinked
      · rw [Function.update_of_ne hself, hmoved.repoState_of_ne hself] at hm
        split at hm
        · cases hm
        · next hmk =>
            obtain ⟨hname, ref', href', hcommit⟩ := h.loaded m lref' hm
            refine ⟨hname, ref', ?_, hcommit⟩
            show app₁.repo.lookup m = some ref'
            rw [hmoved.lookupOther m hmk hself, href']
    revExists := by
      intro rev hrev ref' href'
      have hmem : revName rev ∈ app₁.revs.map revName := List.mem_map_of_mem hrev
      -- the revs are the old ones, each under the new name of its ref
      rw [hmoved.revs] at hmem
      obtain ⟨rev₀, hrev₀, hname⟩ := List.mem_map.mp hmem
      have hfull : revName rev = some ref'.fullName := by rw [revName, href', Option.map_some]
      refine hmoved.isSome_renameIn (hname.trans hfull) fun m' hm' => ?_
      obtain ⟨ref₀, href₀, rfl⟩ := Option.map_eq_some_iff.mp hm'
      exact h.revExists rev₀ hrev₀ ref₀ href₀
    headExists := by
      intro head ref' hhead href'
      have hname := hmoved.head
      change app₁.head = some head at hhead
      rw [hhead, Option.bind_some, href', Option.map_some] at hname
      refine hmoved.isSome_renameIn hname.symm fun m' hm' => ?_
      obtain ⟨ref₀, hbind, rfl⟩ := Option.map_eq_some_iff.mp hm'
      obtain ⟨head₀, hhead₀, href₀⟩ := Option.bind_eq_some_iff.mp hbind
      exact h.headExists head₀ ref₀ hhead₀ href₀
    selectionCurrent := hselection }

omit [DecidableEq κ] in
/-- What is recorded after the ref of a column moved and its history followed. -/
theorem Moved.advances (h : Linked env app) {k : Bytes} {ref : Ref} {action : Action}
    (hmoved : Moved app app₁ k ref) (hcol : app.columnRef action = some k)
    {lref₀ lref : State.LoadedRef κ} (hlref₀ : app.repoState k = some lref₀) {app₂ : App κ ω}
    (hrepo : app₂.repo = app₁.repo)
    (hloads : Loads env app₁.repo (app₁.withLoaded ref.fullName lref).repoState app₂.repoState)
    (hturn : lref.history.timeline (shown env.ids) =
      action.turn (lref₀.history.timeline (shown env.ids))
        (Ref.shorthand ref.fullName, some ref.commit)) :
    recorded env app₂.repo app₂.repoState =
      advance app app₂ action (recorded env app.repo app.repoState) := by
  obtain ⟨-, ref₀, href₀, -⟩ := h.loaded k lref₀ hlref₀
  ext1 m
  by_cases hself : m = ref.fullName
  · subst hself
    -- the ref has its history from `k`, under whatever name
    have horigin : app.origin action ref.fullName = some k := by
      unfold origin
      split
      · next hsome =>
          by_contra hne
          have hnone := (hmoved.lookupPrev fun heq => hne (by rw [heq])).2
          rw [hnone] at hsome
          cases hsome
      · exact hcol
    have hrecorded : recorded env app.repo app.repoState k =
        some (lref₀.history.timeline (shown env.ids)) := by
      unfold recorded
      rw [href₀, Option.map_some, hlref₀]
    unfold advance
    rw [hrepo, hmoved.lookupSelf, Option.map_some, horigin, Option.bind_some, hrecorded, hcol]
    simp only [if_true]
    unfold recorded
    rw [hmoved.lookupSelf, Option.map_some, hloads.kept _ _ (repoState_withLoaded _ _)]
    exact congrArg some hturn
  · cases href : app₂.repo.lookup m with
    | none => simp [recorded, advance, href]
    | some ref' =>
        rw [hrepo] at href
        -- any other ref is as it was, and so is its history
        have hmk : m ≠ k := by
          rintro rfl
          rw [(hmoved.lookupPrev hself).1] at href
          cases href
        have hlookup := hmoved.lookupOther m hmk hself
        refine advance_of_kept h (hrepo ▸ hlookup) (hlookup ▸ href) ?_ ?_
        · refine (hloads.kept' m).congr hlookup.symm ?_
          show app.repoState m = Function.update app₁.repoState ref.fullName (some lref) m
          rw [Function.update_of_ne hself, hmoved.repoState_of_ne hself, if_neg hmk]
        · rw [hcol]
          exact fun heq => hmk (Option.some.inj heq).symm

/-- What an action on the ref `k` of a column leaves behind: everything is linked and
recorded, and the column has the same ref, maybe under a new name. -/
structure Turned (env : Env κ ω) (app app' : App κ ω) (action : Action) (k : Bytes) : Prop where
  linked : Linked env app'
  recorded : recorded env app'.repo app'.repoState =
    advance app app' action (recorded env app.repo app.repoState)
  synced : Synced app'
  size : app'.size = app.size
  followed : ∃ k' t now,
    app'.revs.map revName = app.revs.map (fun rev => renameIn k k' (revName rev)) ∧
    App.recorded env app.repo app.repoState k = some t ∧
    App.recorded env app'.repo app'.repoState k' = some (action.turn t now)

omit [DecidableEq κ] in
theorem Moved.turned (h : Linked env app) {k : Bytes} {ref : Ref} {action : Action}
    (hmoved : Moved app app₁ k ref) (hcol : app.columnRef action = some k)
    {lref₀ lref : State.LoadedRef κ} (hlref₀ : app.repoState k = some lref₀)
    (hturn : lref.history.timeline (shown env.ids) =
      action.turn (lref₀.history.timeline (shown env.ids))
        (Ref.shorthand ref.fullName, some ref.commit))
    {selection : Ui.Selection} {app' : App κ ω}
    (hreloaded : Reloaded env { app₁.withLoaded ref.fullName lref with selection := selection } app')
    (hlinked : Linked env app') : Turned env app app' action k where
  linked := hlinked
  recorded := hmoved.advances h hcol hlref₀ hreloaded.repo hreloaded.loads hturn
  synced := hreloaded.synced
  size := hreloaded.size.trans hmoved.size
  followed := by
    obtain ⟨-, ref₀, href₀, -⟩ := h.loaded k lref₀ hlref₀
    refine ⟨ref.fullName, lref₀.history.timeline (shown env.ids),
      (Ref.shorthand ref.fullName, some ref.commit), hreloaded.revs.trans hmoved.revs, ?_, ?_⟩
    · unfold App.recorded
      rw [href₀, Option.map_some, hlref₀]
    · have hloaded := hreloaded.loads.kept _ _ (repoState_withLoaded ref.fullName lref)
      have hlookup : app'.repo.lookup ref.fullName = some ref := by
        rw [hreloaded.repo]
        exact hmoved.lookupSelf
      unfold App.recorded
      rw [hlookup, Option.map_some, hloaded]
      exact congrArg some hturn

/-! ## Undo and redo -/

/-- The state that an undo (or redo) restores. -/
def turnPeek (undo : Bool) (h : State.History (State.HistoryRefState κ)) :
    Option (State.HistoryRefState κ) :=
  if undo then h.prevPeek else h.nextPeek

/-- The commits of a stored selection are found. -/
def SelectionFound (env : Env κ ω) (inputs : Inputs κ) (selection : Finset κ) : Prop :=
  ∀ id ∈ selection, inputs.missing id = false ∧ (env.ids.commit id).isSome

/-- An undo (or redo) that changes its ref finds the selection it restores. -/
def TurnFound (env : Env κ ω) (inputs : Inputs κ) (ref : Ref) (undo : Bool)
    (refStatePrev refState : State.HistoryRefState κ) : Prop :=
  ∀ commit, env.ids.commit refState.refState.head = some commit →
    commit ≠ ref.commit ∨ ref.name ≠ refState.refState.name →
      SelectionFound env inputs (if undo then refStatePrev.selectionPrev else refState.selection)

omit [DecidableEq κ] in
theorem selectionLookup_ends (selection : Finset κ) :
    Program.Ends (selectionLookup env inputs selection) app (fun _ app' => app' = app)
      (fun _ app' => app' = app ∧ ¬SelectionFound env inputs selection) := by
  unfold selectionLookup
  dsimp only
  split
  · exact .pure rfl
  · next hmissing =>
      refine .fail ⟨rfl, fun hfound => hmissing fun id hid => ?_⟩
      obtain ⟨hthere, hcommit⟩ := hfound id hid
      simpa [hthere] using hcommit

theorem undoRedoBody_ends (h : Linked env app) {rev : Rev} {ref : Ref} {undo : Bool}
    {lref : State.LoadedRef κ} {refState : State.HistoryRefState κ}
    (hcurrent : app.repo.Current ref) (hmutable : ref.isMutable = true)
    (hlref : app.repoState ref.fullName = some lref)
    (hpeek : turnPeek undo lref.history = some refState)
    (hclear : Restorable env app ref refState.refState) :
    Program.Ends (undoRedoBody env inputs rev ref undo lref.history.current refState) app
      (fun _ app' => ∃ ref' app₁ lref' selection, Moved app app₁ ref.fullName ref' ∧
        Ready env app₁ ∧ HistoryLinked env app₁.repo ref'.fullName lref' ∧
        (if undo then lref.history.prev else lref.history.next) = some lref'.history ∧
        app' = { app₁.withLoaded ref'.fullName lref' with
          selection := ⟨some (rev.assign (.ofRef ref')), selection⟩ })
      (fun e app' => e ≠ .abort → ¬inputs.fault.IsLate →
        RestoreFree env inputs app ref refState.refState →
        TurnFound env inputs ref undo lref.history.current refState → Rests app app') := by
  have hloaded : (app.repoState ref.fullName).isSome := by rw [hlref, Option.isSome_some]
  unfold undoRedoBody
  refine .bind ((refStateRestore_ends h.toReady hcurrent hmutable hloaded hclear).mono ?_
    fun _ _ hfailed habort hlate hfree _ => hfailed habort hlate hfree)
  rintro ref' app₁ ⟨hmoved, hready, hname, hcommit, hsame⟩
  refine .bind ((selectionLookup_ends _).mono ?_ ?_)
  · intro selection app₂ happ
    rw [happ]
    have hlref₁ : app₁.repoState ref'.fullName = some lref := hmoved.repoState_self.trans hlref
    have hlref₂ : ({ app₁ with selection := ⟨some (rev.assign (.ofRef ref')), selection⟩ } :
        App κ ω).repoState ref'.fullName = some lref := hlref₁
    refine .bind (.update (.bind (loadRef_ends hlref₂ ?_)))
    -- the history moves to the state that was peeked at
    obtain ⟨hist, hturn, hcurrentHist⟩ : ∃ hist,
        (if undo then lref.history.prev else lref.history.next) = some hist ∧
          hist.current = refState := by
      unfold turnPeek at hpeek
      cases undo with
      | true => exact State.History.prev_of_prevPeek hpeek
      | false => exact State.History.next_of_nextPeek hpeek
    rw [hturn]
    dsimp only
    refine .bind (.update (snapshotInitialPush_ends (repoState_withLoaded _ _) ?_))
    refine ⟨ref', app₁, (lref.setHistory hist).snapshotInitialPush env.ids, selection, hmoved,
      hready, ?_, ?_, ?_⟩
    · unfold HistoryLinked
      rw [State.LoadedRef.history_snapshotInitialPush, State.LoadedRef.history_setHistory,
        hcurrentHist]
      exact ⟨hname.symm, ref', hmoved.lookupSelf, hcommit⟩
    · rw [State.LoadedRef.history_snapshotInitialPush, State.LoadedRef.history_setHistory]
    · exact withLoaded_withLoaded _ _ _
  · rintro e app₂ ⟨happ, hmissing⟩ - - - hfound
    rw [happ]
    by_cases hunchanged : env.ids.commit refState.refState.head = some ref.commit ∧
        ref.name = refState.refState.name
    · rw [hsame hunchanged.1 hunchanged.2]
      exact refl_of Rests app
    · refine absurd (hfound _ hcommit ?_) hmissing
      by_contra hno
      push Not at hno
      exact hunchanged ⟨hno.1 ▸ hcommit, hno.2⟩

theorem undoRedo_ends (h : Linked env app) {i : Nat} {rev : Rev} {ref : Ref} {undo : Bool}
    {lref : State.LoadedRef κ} {refState : State.HistoryRefState κ}
    (hcol : app.colRef i = some ref) (href : rev.ref = some ref)
    (hlref : app.repoState ref.fullName = some lref)
    (hpeek : turnPeek undo lref.history = some refState)
    (hclear : Restorable env app ref refState.refState) :
    Program.Ends (undoRedo env inputs rev undo) app
      (fun _ app' => Turned env app app' (if undo then .undo i else .redo i) ref.fullName)
      (fun e app' => e ≠ .abort → ¬inputs.fault.IsLate →
        RestoreFree env inputs app ref refState.refState →
        TurnFound env inputs ref undo lref.history.current refState → Rests app app') := by
  obtain ⟨-, -, -, -, hmutable, hcurrent, -⟩ := colRef_eq_some h hcol
  have hcolumn : app.columnRef (if undo then .undo i else .redo i) = some ref.fullName := by
    cases undo with
    | true => exact congrArg (Option.map Ref.fullName) hcol
    | false => exact congrArg (Option.map Ref.fullName) hcol
  unfold undoRedo
  rw [href]
  refine .bind (loadRef_ends hlref ?_)
  rw [show (if undo then lref.history.prevPeek else lref.history.nextPeek) = some refState from hpeek]
  dsimp only
  refine .bind (.handle ((undoRedoBody_ends h hcurrent hmutable hlref hpeek hclear).mono ?_ ?_))
  · rintro - app' ⟨ref', app₁, lref', selection, hmoved, hready, hlinked, hturn, rfl⟩
    have hselection : ∀ r, some (rev.assign (.ofRef ref')) = some r → RevCurrent app₁.repo r := by
      rintro _ ⟨⟩ _ ⟨⟩
      exact ⟨hmoved.lookupSelf, rfl⟩
    refine (reload_ends (hmoved.reloadable h hready hlinked hselection)).mono ?_ ?_
    · rintro - app₃ ⟨hreloaded, hlinked₃⟩
      refine hmoved.turned h hcolumn hlref ?_ hreloaded hlinked₃
      cases undo with
      | true => exact State.History.timeline_prev hturn
      | false => exact State.History.timeline_next hturn
    · exact fun e app₃ hlate _ hno => absurd hlate.1 hno
  · intro e app' hfailed
    by_cases he : e = .abort
    · rw [if_pos he]
      exact .fail fun habort => absurd rfl habort
    · rw [if_neg he]
      cases undo with
      | true => exact .fail fun _ => hfailed he
      | false => exact .fail fun _ => hfailed he

/-! ## Snapshots -/

/-- A snapshot that differs from the current state shows something else. -/
def SnapshotDiffers (env : Env κ ω) (current snapshot : State.RefState κ) : Prop :=
  snapshot ≠ current → snapshot.name = current.name →
    env.ids.commit snapshot.head ≠ env.ids.commit current.head

theorem snapshotRestore_ends (h : Linked env app) {i : Nat} {ref : Ref} {choice : Option Nat}
    {lref : State.LoadedRef κ} (hcol : app.colRef i = some ref)
    (hlref : app.repoState ref.fullName = some lref)
    (hclear : ∀ snapshot, snapshotChosen lref choice = some snapshot →
      snapshot.refState ≠ lref.history.current.refState →
        Restorable env app ref snapshot.refState ∧
          SnapshotDiffers env lref.history.current.refState snapshot.refState) :
    Program.Ends (snapshotRestore env inputs ref choice) app
      (fun _ app' => app' = app ∨ Turned env app app' (.restore i choice) ref.fullName)
      (fun e app' => e ≠ .abort → ¬inputs.fault.IsLate →
        (∀ snapshot, snapshotChosen lref choice = some snapshot →
          snapshot.refState ≠ lref.history.current.refState →
            RestoreFree env inputs app ref snapshot.refState) → Rests app app') := by
  obtain ⟨-, -, -, -, hmutable, hcurrent, -⟩ := colRef_eq_some h hcol
  have hcolumn : app.columnRef (.restore i choice) = some ref.fullName :=
    congrArg (Option.map Ref.fullName) hcol
  have hloaded : (app.repoState ref.fullName).isSome := by rw [hlref, Option.isSome_some]
  unfold snapshotRestore
  refine .bind (loadRef_ends hlref ?_)
  cases hchosen : snapshotChosen lref choice with
  | none => exact .pure (Or.inl rfl)
  | some snapshot =>
      dsimp only
      by_cases hsame : snapshot.refState = lref.history.current.refState
      · rw [if_pos hsame]
        exact .pure (Or.inl rfl)
      obtain ⟨hrestorable, hdiffers⟩ := hclear snapshot hchosen hsame
      rw [if_neg hsame]
      refine .bind ((refStateRestore_ends h.toReady hcurrent hmutable hloaded hrestorable).mono ?_
        fun _ _ hfailed habort hlate hfree => hfailed habort hlate (hfree snapshot rfl hsame))
      rintro ref' app₁ ⟨hmoved, hready, hname, hcommit, -⟩
      have hlref₁ : app₁.repoState ref'.fullName = some lref := hmoved.repoState_self.trans hlref
      refine .bind (historyPush_ends hlref₁ (.bind
        (snapshotInitialPush_ends (repoState_withLoaded _ _) ?_)))
      rw [withLoaded_withLoaded]
      refine .bind (.update ?_)
      have hlinked : HistoryLinked env app₁.repo ref'.fullName
          ((lref.setHistory (lref.history.push (.ofRef env.ids ref'))).snapshotInitialPush
            env.ids) := by
        unfold HistoryLinked
        rw [State.LoadedRef.history_snapshotInitialPush, State.LoadedRef.history_setHistory]
        exact ⟨rfl, ref', hmoved.lookupSelf, env.ids.commit_idStr _⟩
      have hselection : ∀ r, (⟨none, ∅⟩ : Ui.Selection).rev = some r → RevCurrent app₁.repo r := by
        rintro _ ⟨⟩
      refine (reload_ends (hmoved.reloadable h hready hlinked hselection)).mono ?_ ?_
      · rintro - app₃ ⟨hreloaded, hlinked₃⟩
        refine Or.inr (hmoved.turned h hcolumn hlref ?_ hreloaded hlinked₃)
        rw [State.LoadedRef.history_snapshotInitialPush, State.LoadedRef.history_setHistory,
          State.History.timeline_push]
        -- what is pushed is another state than the current one
        have hnow : shown env.ids (State.HistoryRefState.ofRef env.ids ref') =
            (Ref.shorthand ref'.fullName, some ref'.commit) := by
          simp [shown, State.RefState.ofRef, Ref.name]
        have hchange : (lref.history.timeline (shown env.ids)).present ≠
            (Ref.shorthand ref'.fullName, some ref'.commit) := by
          rw [State.History.present_timeline]
          intro heq
          obtain ⟨hn, hc⟩ := Prod.mk.inj heq
          refine hdiffers hsame ?_ ?_
          · rw [← hname, hn, Ref.name]
          · rw [hcommit, hc]
        rw [hnow]
        exact (if_neg hchange).symm
      · exact fun e app₃ hlate _ hno => absurd hlate.1 hno

/-! ## Renaming -/

omit [DecidableEq κ] in
/-- The selected rev is current again after its ref was renamed. -/
theorem Renamed.selectionCurrent {refPrev ref : Ref} (h : Renamed app app₁ refPrev ref)
    (hmoved : Moved app app₁ refPrev.fullName ref)
    (hcurrent : ∀ rev, app.selection.rev = some rev → RevCurrent app.repo rev) :
    ∀ rev, app₁.selection.rev = some rev → RevCurrent app₁.repo rev := by
  intro rev hrev
  rw [h.selection] at hrev
  obtain ⟨rev₀, hrev₀, rfl⟩ := Option.map_eq_some_iff.mp hrev
  split
  · rintro _ ⟨⟩
    exact ⟨hmoved.lookupSelf, rfl⟩
  · next hother =>
      intro ref₀ href₀
      obtain ⟨hlookup, hcommit⟩ := hcurrent rev₀ hrev₀ ref₀ href₀
      refine ⟨?_, hcommit⟩
      unfold Repository.Current at hlookup ⊢
      rw [hmoved.lookup_of_isSome (by rw [hlookup, Option.isSome_some]), hlookup]
      intro heq
      refine hother (decide_eq_true ?_)
      rw [href₀, Option.map_some, heq, Option.map_some]

omit [DecidableEq κ] in
/-- A ref that is renamed gets another short name. -/
theorem Renamed.shorthand_ne {refPrev ref : Ref} {name : Bytes}
    (h : Renamed app app₁ refPrev ref) (hcurrent : app.repo.Current refPrev)
    (hmutable : refPrev.isMutable = true)
    (hk : env.names.normalize (refPrev.copyDir ++ name) = some ref.fullName) :
    Ref.shorthand ref.fullName ≠ Ref.shorthand refPrev.fullName := by
  obtain ⟨hdir, hfull, -⟩ := Ref.copyDir_of_isMutable hmutable
  obtain ⟨s, hs⟩ := (env.names.normalize_dir hdir hk).2
  intro heq
  rw [← hs, ← hfull, Ref.shorthand_append hdir, Ref.shorthand_append hdir] at heq
  -- both names would be the same
  have hsame : ref.fullName = refPrev.fullName := by rw [← hs, heq, hfull]
  have hnone := h.lookupNew
  rw [hsame, hcurrent] at hnone
  cases hnone

theorem refRename_ends (h : Linked env app) {i : Nat} {ref : Ref} {name : Bytes}
    {lref : State.LoadedRef κ} (hcol : app.colRef i = some ref)
    (hlref : app.repoState ref.fullName = some lref)
    (hclear : RenameClear env.names app.repo ref name) :
    Program.Ends (refRename env inputs ref name) app
      (fun _ app' => Turned env app app' (.rename i name) ref.fullName)
      (fun e app' => e ≠ .abort → ¬inputs.fault.IsLate → Rests app app') := by
  obtain ⟨-, -, -, -, hmutable, hcurrent, -⟩ := colRef_eq_some h hcol
  have hcolumn : app.columnRef (.rename i name) = some ref.fullName :=
    congrArg (Option.map Ref.fullName) hcol
  have hloaded : (app.repoState ref.fullName).isSome := by rw [hlref, Option.isSome_some]
  unfold refRename
  refine .bind ((gitRefRename_ends h.toReady hcurrent hmutable hloaded hclear).mono ?_
    fun _ _ hfailed habort hlate => (hfailed habort hlate).1)
  rintro ref' app₁ ⟨hrenamed, hready, -, hk⟩
  have hmoved := (Moved.refl hcurrent).renamed hrenamed
  have hlref₁ : app₁.repoState ref'.fullName = some lref := hmoved.repoState_self.trans hlref
  refine .bind (historyPush_ends hlref₁ (.bind
    (snapshotInitialPush_ends (repoState_withLoaded _ _) ?_)))
  rw [withLoaded_withLoaded]
  have hlinked : HistoryLinked env app₁.repo ref'.fullName
      ((lref.setHistory (lref.history.push (.ofRef env.ids ref'))).snapshotInitialPush env.ids) := by
    unfold HistoryLinked
    rw [State.LoadedRef.history_snapshotInitialPush, State.LoadedRef.history_setHistory]
    exact ⟨rfl, ref', hmoved.lookupSelf, env.ids.commit_idStr _⟩
  have hselection := hrenamed.selectionCurrent hmoved h.selectionCurrent
  refine (reload_ends (hmoved.reloadable h hready hlinked hselection)).mono ?_ ?_
  · rintro - app₃ ⟨hreloaded, hlinked₃⟩
    refine hmoved.turned h hcolumn hlref ?_ hreloaded hlinked₃
    rw [State.LoadedRef.history_snapshotInitialPush, State.LoadedRef.history_setHistory,
      State.History.timeline_push]
    have hnow : shown env.ids (State.HistoryRefState.ofRef env.ids ref') =
        (Ref.shorthand ref'.fullName, some ref'.commit) := by
      simp [shown, State.RefState.ofRef, Ref.name]
    have hchange : (lref.history.timeline (shown env.ids)).present ≠
        (Ref.shorthand ref'.fullName, some ref'.commit) := by
      rw [State.History.present_timeline]
      intro heq
      have hname := (h.loaded _ lref hlref).1.symm.trans (Prod.mk.inj heq).1
      exact hrenamed.shorthand_ne hcurrent hmutable hk hname.symm
    rw [hnow]
    exact (if_neg hchange).symm
  · exact fun e app₃ hlate _ hno => absurd hlate.1 hno

end Methods

end App
end Debase
