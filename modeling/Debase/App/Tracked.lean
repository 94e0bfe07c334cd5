import Debase.App.Anchored
import Debase.App.Columns
import Debase.App.Safety
import Debase.Git.Outcome

/-!
# The head over a session

Between two actions the head is current (`Settled`), and every action that succeeds
moves it as `Tracks` says.  The one thing that gets in the way is a tag that is checked
out and renamed to a name under which another tag is found (`HeadFound`).  What `run`
checks out at exit is then the ref that was checked out at the start.
-/

namespace Debase

open Git Library

namespace App

variable {κ ω : Type}

/-- What holds between two actions: `_head` and the columns are as the refs are. -/
structure Settled (env : Env κ ω) (app : App κ ω) : Prop extends Anchored env app where
  headCurrent : ∀ head ref, app.head = some head → head.ref = some ref →
    app.repo.Current ref ∧ head.commit = ref.commit
  columns : ∀ col ∈ app.columns, RevCurrent app.repo col.rev

/-- The full name of the ref that is found after a ref was replaced. -/
def replacedName (names : RefNames) (repo : Repository) (ref : Ref) : Option Bytes :=
  if ref.isTag then
    (dwimLoop names repo (dwimNames ref.name) .notFound).toOption.map Ref.fullName
  else some ref.fullName

/-- The full name of the ref that `_refStateRestore` renames. -/
def renamedName (env : Env κ ω) (repo : Repository) (ref : Ref) (refState : State.RefState κ) :
    Option Bytes := do
  let commit ← env.ids.commit refState.head
  let k ← if ref.commit = commit then some ref.fullName else replacedName env.names repo ref
  if Ref.shorthand k = refState.name then none else some k

/-- If the ref that is renamed is the tag in `_head`, it is found by its new name. -/
def RenameFound (env : Env κ ω) (app : App κ ω) (k name : Bytes) : Prop :=
  app.headRef = some k → Ref.tagsDir <+: k → TagNameClear env.names app.repo name

instance (env : Env κ ω) (app : App κ ω) (k name : Bytes) :
    Decidable (RenameFound env app k name) :=
  inferInstanceAs (Decidable (_ → _ → _))

section Reload

variable [DecidableEq κ] {env : Env κ ω} {inputs : Inputs κ} {app app' : App κ ω}

omit [DecidableEq κ] in
theorem RevCurrent.exists {repo : Repository} {rev : Rev} (h : RevCurrent repo rev) :
    RevExists repo rev := by
  intro ref href
  rw [(h ref href).1]
  rfl

omit [DecidableEq κ] in
theorem reloadHead_settled (h : Anchored env app) :
    Program.Returns (reloadHead inputs) app fun _ app' => ∃ head,
      app' = { app with head := head } ∧ app'.headRef = app.headRef ∧
        (app.head = none → head = none) ∧ ∀ x ref, head = some x → x.ref = some ref →
          app.repo.Current ref ∧ x.commit = ref.commit := by
  unfold reloadHead
  refine .read_bind ?_
  cases hhead : app.head with
  | none => exact .pure ⟨none, by rw [← hhead], rfl, fun _ => rfl, nofun⟩
  | some head =>
      have hexists : ∀ ref, head.ref = some ref → (app.repo.lookup ref.fullName).isSome := by
        intro ref href
        apply h.headExists
        unfold headRef
        rw [hhead, Option.bind_some, href, Option.map_some]
      refine .bind_ends (.zoom ((revReload_ends hexists).mono ?_ fun _ _ _ => trivial))
      rintro x _ ⟨rfl, hnone, hsome⟩
      refine .update ⟨some x, rfl, ?_, nofun, ?_⟩
      · show (x.ref).map Ref.fullName = (app.head.bind GitRev.ref).map Ref.fullName
        rw [hhead, Option.bind_some]
        cases href : head.ref with
        | none => rw [hnone href, href]
        | some ref =>
            obtain ⟨ref', hlookup, rfl⟩ := hsome ref href
            rw [Option.map_some, Option.map_some, fullName_of_lookup hlookup]
      · rintro _ ref' ⟨⟩ href'
        cases href : head.ref with
        | none =>
            rw [hnone href, href] at href'
            cases href'
        | some ref =>
            obtain ⟨ref₁, hlookup, rfl⟩ := hsome ref href
            cases href'
            exact ⟨current_of_lookup hlookup, rfl⟩

theorem reload_settled (h : Anchored env app) :
    Program.Returns (reload env inputs) app fun _ app' => Settled env app' ∧ SameRefs app app' := by
  unfold reload
  refine .bind (reloadHead_settled h) ?_
  rintro - _ ⟨head, rfl, hhead, hnone, hcurrent⟩
  refine .read_bind (.bind_ends ((reloadRevs_ends app.revs [] { app with head := head } rfl
    h.revs).mono ?_ fun _ _ _ => trivial))
  rintro - _ ⟨revs, rfl, -, hrevs⟩
  obtain ⟨columns, repoState, happ, hcolumns, -⟩ :=
    @reloadColumns_spec κ ω _ env inputs revs columnInsetX 0
      { app with head := head, revs := revs } (Nat.zero_le _) hrevs
  refine .update ?_
  simp only [List.nil_append] at hhead ⊢
  rw [happ]
  have h₁ : Anchored env { app with head := head } := h.congr rfl rfl hhead hnone rfl h.selection
  refine ⟨{ h₁ with
    revs := fun rev hrev => (hrevs rev hrev).exists
    headCurrent := hcurrent
    columns := ?_ }, .of_repo rfl hhead rfl⟩
  intro col hcol
  have hmem : col.rev ∈ columns.map Ui.RevColumn.rev := List.mem_map_of_mem hcol
  rw [hcolumns, List.take_zero, List.map_nil, List.nil_append] at hmem
  exact hrevs _ (List.mem_of_mem_take hmem)

omit [DecidableEq κ] in
/-- Only the outside, the histories and the selection changed. -/
theorem Settled.congr (h : Settled env app) (hrepo : app'.repo = app.repo)
    (hflag : app'.headReattach = app.headReattach) (hhead : app'.head = app.head)
    (hrevs : app'.revs = app.revs) (hcolumns : app'.columns = app.columns)
    (hselection : ∀ rev, app'.selection.rev = some rev → RevExists app.repo rev) :
    Settled env app' where
  toAnchored := by
    refine h.toAnchored.congr hrepo hflag ?_ hhead.trans hrevs hselection
    unfold headRef
    rw [hhead]
  headCurrent := by
    rw [hrepo, hhead]
    exact h.headCurrent
  columns := by
    rw [hrepo, hcolumns]
    exact h.columns

end Reload

/-! ## Restoring states -/

section Restore

variable [DecidableEq κ] {env : Env κ ω} {inputs : Inputs κ} {app : App κ ω}

omit [DecidableEq κ] in
theorem replacedName_of_found {names : RefNames} {repo repo' : Repository} {ref found : Ref}
    (hfound : Found names repo' ref found) (hsame : ref.isTag = true → SameNames repo repo') :
    replacedName names repo ref = some found.fullName := by
  unfold Found at hfound
  unfold replacedName
  by_cases htag : ref.isTag = true
  · rw [if_pos htag] at hfound ⊢
    have hnames := (hsame htag).dwimLoop names (dwimNames ref.name) .notFound
    rw [hfound] at hnames
    cases hw : dwimLoop names repo (dwimNames ref.name) .notFound with
    | error code =>
        rw [hw] at hnames
        cases hnames
    | ok ref' =>
        rw [hw] at hnames
        exact (congrArg some (Except.ok.inj hnames)).symm
  · rw [if_neg htag] at hfound ⊢
    rw [hfound]

omit [DecidableEq κ] in
theorem tagsDir_of_not_isBranch {ref : Ref} (hmutable : ref.isMutable = true)
    (hbranch : ref.isBranch = false) : Ref.tagsDir <+: ref.fullName := by
  obtain ⟨-, hfull, -⟩ := Ref.copyDir_of_isMutable hmutable
  have hdir : ref.copyDir = Ref.tagsDir := if_neg (by rw [hbranch]; exact Bool.false_ne_true)
  rw [hdir] at hfull
  exact ⟨ref.name, hfull⟩

omit [DecidableEq κ] in
theorem refStateRestore_tracks (h : Anchored env app) {ref : Ref} {refState : State.RefState κ}
    (hmutable : ref.isMutable = true) (hexists : (app.repo.lookup ref.fullName).isSome)
    (hclear : ∀ k, renamedName env app.repo ref refState = some k →
      RenameFound env app k refState.name) :
    Program.Returns (refStateRestore env inputs ref refState) app fun ref' app' =>
      Anchored env app' ∧ Tracks env (some refState.name) app app' ∧
        (app'.repo.lookup ref'.fullName).isSome := by
  -- what is left once the ref has its commit
  have hrest : ∀ (ref₁ : Ref) (app₁ : App κ ω), Anchored env app₁ → SameRefs app app₁ →
      ref₁.isMutable = true → (app₁.repo.lookup ref₁.fullName).isSome →
      (ref₁.name ≠ refState.name → RenameFound env app ref₁.fullName refState.name) →
      Program.Returns
        (if ref₁.name ≠ refState.name then gitRefRename env inputs ref₁ refState.name
          else pure ref₁) app₁ fun ref' app' =>
        Anchored env app' ∧ Tracks env (some refState.name) app app' ∧
          (app'.repo.lookup ref'.fullName).isSome := by
    intro ref₁ app₁ h₁ hsame hmutable₁ hexists₁ hclear₁
    split
    · next hname =>
        refine (gitRefRename_tracks h₁ hmutable₁ hexists₁ fun hwas hbranch => ?_).mono ?_
        · refine tagNameClear_mono (hclear₁ hname (hsame.head ▸ hwas)
            (tagsDir_of_not_isBranch hmutable₁ hbranch)) fun m hm => ?_
          have hnone := hsame.exists_eq m
          rw [hm] at hnone
          simpa using hnone
        · rintro ref' app' ⟨h', htracks, hexists'⟩
          exact ⟨h', hsame.trans_tracks htracks, hexists'⟩
    · exact .pure ⟨h₁, hsame.tracks h, hexists₁⟩
  unfold refStateRestore
  refine .bind_ends ((headLookup_ends refState.head).mono ?_ fun _ _ _ => trivial)
  rintro commit app₀ ⟨happ, hid⟩
  rw [happ]
  by_cases hcommit : ref.commit = commit
  · rw [if_neg (not_not.mpr hcommit)]
    refine .bind_ends (.pure (hrest ref app h .refl hmutable hexists fun hname => hclear _ ?_))
    unfold renamedName
    simp only [hid, Option.bind_eq_bind, Option.bind_some, if_pos hcommit]
    exact if_neg hname
  · rw [if_pos hcommit]
    refine .bind (gitRefReplace_sameRefs h hmutable hexists commit) ?_
    rintro ref₁ app₁ ⟨h₁, hsame, hcurrent, hmutable₁, hfound, hnames⟩
    refine hrest ref₁ app₁ h₁ hsame hmutable₁ (by rw [hcurrent]; rfl) fun hname => hclear _ ?_
    unfold renamedName
    simp only [hid, Option.bind_eq_bind, Option.bind_some, if_neg hcommit,
      replacedName_of_found hfound hnames]
    exact if_neg hname

theorem loadRef_returns (ref : Ref) :
    Program.Returns (loadRef env inputs ref) app fun lref app' =>
      lref = app.loaded env inputs ref ∧ ∃ repoState, app' = { app with repoState := repoState } := by
  unfold loadRef
  exact .read_bind (.update_bind (.pure ⟨rfl, _, rfl⟩))

theorem historyPush_returns (ref : Ref) (x : State.HistoryRefState κ) :
    Program.Returns (historyPush env inputs ref x) app fun _ app' =>
      ∃ repoState, app' = { app with repoState := repoState } := by
  unfold historyPush setLoaded
  refine .bind (loadRef_returns ref) ?_
  rintro lref _ ⟨-, repoState, rfl⟩
  exact .update ⟨_, rfl⟩

theorem snapshotInitialPush_returns (ref : Ref) :
    Program.Returns (snapshotInitialPush env inputs ref) app fun _ app' =>
      ∃ repoState, app' = { app with repoState := repoState } := by
  unfold snapshotInitialPush setLoaded
  refine .bind (loadRef_returns ref) ?_
  rintro lref _ ⟨-, repoState, rfl⟩
  exact .update ⟨_, rfl⟩

theorem reload_tracks {asked : Option Bytes} {app₁ : App κ ω} (h₁ : Anchored env app₁)
    (htracks : Tracks env asked app app₁) :
    Program.Returns (reload env inputs) app₁ fun _ app' =>
      Settled env app' ∧ Tracks env asked app app' := by
  refine (reload_settled h₁).mono ?_
  rintro - app' ⟨h', hsame⟩
  exact ⟨h', htracks.trans_sameRefs hsame⟩

omit [DecidableEq κ] in
/-- The histories do not matter. -/
theorem Anchored.withState {repoState : State.LoadedRefs κ} (h : Anchored env app) :
    Anchored env { app with repoState := repoState } :=
  h.congr rfl rfl rfl id rfl h.selection

omit [DecidableEq κ] in
theorem Tracks.withState {asked : Option Bytes} {app₁ : App κ ω} {repoState : State.LoadedRefs κ}
    (h : Tracks env asked app app₁) : Tracks env asked app { app₁ with repoState := repoState } :=
  h.trans_sameRefs (.of_repo rfl rfl rfl)

theorem undoRedoBody_tracks (h : Anchored env app) {rev : Rev} {ref : Ref}
    (hmutable : ref.isMutable = true) (hexists : (app.repo.lookup ref.fullName).isSome)
    (undo : Bool) (refStatePrev refState : State.HistoryRefState κ)
    (hclear : ∀ k, renamedName env app.repo ref refState.refState = some k →
      RenameFound env app k refState.refState.name) :
    Program.Returns (undoRedoBody env inputs rev ref undo refStatePrev refState) app
      fun _ app' => Anchored env app' ∧ Tracks env (some refState.refState.name) app app' := by
  unfold undoRedoBody
  refine .bind (refStateRestore_tracks h hmutable hexists hclear) ?_
  rintro ref' app₁ ⟨h₁, htracks, hexists'⟩
  refine .bind_ends ((selectionLookup_ends _).mono ?_ fun _ _ _ => trivial)
  rintro selection _ happ
  rw [happ]
  have h₂ : Anchored env { app₁ with selection := ⟨some (rev.assign (.ofRef ref')), selection⟩ } := by
    refine h₁.congr rfl rfl rfl id rfl ?_
    rintro _ ⟨⟩ _ ⟨⟩
    exact hexists'
  have htracks₂ : Tracks env (some refState.refState.name) app
      { app₁ with selection := ⟨some (rev.assign (.ofRef ref')), selection⟩ } :=
    htracks.trans_sameRefs (.of_repo rfl rfl rfl)
  refine .update_bind (.bind (loadRef_returns ref') ?_)
  rintro lref _ ⟨-, repoState, rfl⟩
  dsimp only
  split
  · exact .bind_ends (.fail trivial)
  · refine .update_bind ((snapshotInitialPush_returns ref').mono ?_)
    rintro - _ ⟨repoState', rfl⟩
    exact ⟨h₂.withState, htracks₂.withState⟩

theorem undoRedo_tracks (h : Anchored env app) {rev : Rev} {ref : Ref} {undo : Bool}
    {asked : Option Bytes} (href : rev.ref = some ref) (hmutable : ref.isMutable = true)
    (hexists : (app.repo.lookup ref.fullName).isSome)
    (hclear : ∀ x, turnPeek undo (app.loaded env inputs ref).history = some x →
      asked = some x.refState.name ∧ ∀ k, renamedName env app.repo ref x.refState = some k →
        RenameFound env app k x.refState.name) :
    Program.Returns (undoRedo env inputs rev undo) app fun _ app' =>
      Settled env app' ∧ Tracks env asked app app' := by
  unfold undoRedo
  rw [href]
  refine .bind (loadRef_returns ref) ?_
  rintro lref _ ⟨rfl, repoState, rfl⟩
  dsimp only
  have hturn : (if undo then (app.loaded env inputs ref).history.prevPeek
      else (app.loaded env inputs ref).history.nextPeek) =
      turnPeek undo (app.loaded env inputs ref).history := rfl
  rw [hturn]
  cases hpeek : turnPeek undo (app.loaded env inputs ref).history with
  | none => exact .bind_ends (.fail trivial)
  | some x =>
      obtain ⟨rfl, hfound⟩ := hclear x hpeek
      have hsame : SameRefs app { app with repoState := repoState } := .of_repo rfl rfl rfl
      have h₁ : Anchored env { app with repoState := repoState } := h.withState
      have hbody : Program.Returns (undoRedoBody env inputs rev ref undo
          (app.loaded env inputs ref).history.current x) { app with repoState := repoState }
          fun _ app' => Anchored env app' ∧ Tracks env (some x.refState.name) app app' := by
        refine (undoRedoBody_tracks h₁ hmutable hexists undo _ x hfound).mono ?_
        rintro - app' ⟨h', htracks⟩
        exact ⟨h', hsame.trans_tracks htracks⟩
      refine .bind (.handle hbody fun e s => ?_) ?_
      · split
        · exact .fail
        · split
          · exact .fail
          · exact .fail
      · rintro - app₂ ⟨h₂, htracks⟩
        exact reload_tracks h₂ htracks

theorem snapshotRestore_tracks (h : Settled env app) {ref : Ref} {choice : Option Nat}
    {asked : Option Bytes} (hmutable : ref.isMutable = true)
    (hexists : (app.repo.lookup ref.fullName).isSome)
    (hclear : ∀ snapshot, snapshotChosen (app.loaded env inputs ref) choice = some snapshot →
      snapshot.refState ≠ (app.loaded env inputs ref).history.current.refState →
      asked = some snapshot.refState.name ∧
        ∀ k, renamedName env app.repo ref snapshot.refState = some k →
          RenameFound env app k snapshot.refState.name) :
    Program.Returns (snapshotRestore env inputs ref choice) app fun _ app' =>
      Settled env app' ∧ Tracks env asked app app' := by
  unfold snapshotRestore
  refine .bind (loadRef_returns ref) ?_
  rintro lref _ ⟨rfl, repoState, rfl⟩
  have hsame : SameRefs app { app with repoState := repoState } := .of_repo rfl rfl rfl
  have hidle : Settled env { app with repoState := repoState } :=
    h.congr rfl rfl rfl rfl rfl h.selection
  cases hchosen : snapshotChosen (app.loaded env inputs ref) choice with
  | none => exact .pure ⟨hidle, hsame.tracks h.toAnchored⟩
  | some snapshot =>
      dsimp only
      split
      · exact .pure ⟨hidle, hsame.tracks h.toAnchored⟩
      · next hdiffers =>
          obtain ⟨rfl, hfound⟩ := hclear snapshot hchosen hdiffers
          refine .bind (refStateRestore_tracks hidle.toAnchored hmutable hexists hfound) ?_
          rintro ref' app₁ ⟨h₁, htracks, -⟩
          refine .bind (historyPush_returns ref' _) ?_
          rintro - _ ⟨repoState₁, rfl⟩
          refine .bind (snapshotInitialPush_returns ref') ?_
          rintro - _ ⟨repoState₂, rfl⟩
          refine .update_bind (reload_tracks ?_ ?_)
          · refine h₁.congr rfl rfl rfl id rfl ?_
            rintro _ ⟨⟩
          · exact (hsame.trans_tracks htracks).trans_sameRefs (.of_repo rfl rfl rfl)

/-! ## Renaming and deleting -/

theorem refRename_tracks (h : Anchored env app) {ref : Ref} (hmutable : ref.isMutable = true)
    (hexists : (app.repo.lookup ref.fullName).isSome) {name : Bytes}
    (hclear : RenameFound env app ref.fullName name) :
    Program.Returns (refRename env inputs ref name) app fun _ app' =>
      Settled env app' ∧ Tracks env (some name) app app' := by
  unfold refRename
  refine .bind (gitRefRename_tracks h hmutable hexists fun hwas hbranch =>
    hclear hwas (tagsDir_of_not_isBranch hmutable hbranch)) ?_
  rintro ref' app₁ ⟨h₁, htracks, -⟩
  refine .bind (historyPush_returns ref' _) ?_
  rintro - _ ⟨repoState₁, rfl⟩
  refine .bind (snapshotInitialPush_returns ref') ?_
  rintro - _ ⟨repoState₂, rfl⟩
  exact reload_tracks h₁.withState htracks.withState

theorem refRemove_tracks (h : Anchored env app) {ref : Ref} (hmutable : ref.isMutable = true) :
    Program.Returns (refRemove env inputs ref) app fun _ app' =>
      Settled env app' ∧ Tracks env none app app' := by
  unfold refRemove
  refine .bind (gitRefDelete_tracks h hmutable) ?_
  rintro - app₁ ⟨h₁, htracks⟩
  exact reload_tracks h₁ htracks

end Restore

/-! ## Creating refs -/

section Create

variable [DecidableEq κ] {env : Env κ ω} {inputs : Inputs κ} {app : App κ ω}

omit [DecidableEq κ] in
/-- Names are tried one after the other, in repositories with more and more refs. -/
theorem createFirst_grows {names : RefNames} {create : Bytes → Program Repository Exn Ref}
    (l : List Bytes) {repo : Repository}
    (hcreate : ∀ n repo', repo'.head = repo.head → Grows names repo' (create n)) :
    Grows names repo (createFirst create l) := by
  induction l generalizing repo with
  | nil => exact Program.Ends.fail .refl
  | cons n l ih =>
      unfold createFirst
      refine Program.Ends.handle ((hcreate n repo rfl).mono (fun _ _ h => h) fun e repo₁ h₁ => ?_)
      split
      · refine (ih fun n' repo' hhead => hcreate n' repo' (hhead.trans h₁.head)).mono ?_ ?_
        · rintro ref repo₂ ⟨h₂, hcurrent⟩
          exact ⟨h₁.trans h₂, hcurrent⟩
        · exact fun e' repo₂ h₂ => h₁.trans h₂
      · exact .fail h₁

theorem revCreate_end_tracks (h : Anchored env app) {x : Program Repository Exn Ref}
    (hx : Grows env.names app.repo x) (template : Rev) (commit : Commit) :
    Program.Returns (revCreateEnd env inputs x template commit) app fun _ app' =>
      Settled env app' ∧ Tracks env none app app' := by
  unfold revCreateEnd
  refine .bind_ends (.zoom (Program.Ends.mono hx ?_ fun _ _ _ => trivial))
  rintro ref repo₁ ⟨hgrown, hcurrent⟩
  refine .bind_ends (.zoom (Program.Ends.mono (reflogRememberRef_returns ref) ?_
    fun _ _ _ => trivial))
  rintro - _ hrepo
  rw [hrepo]
  -- a new ref takes no lookup away
  have hgrows : ∀ m, (app.repo.lookup m).isSome → (repo₁.lookup m).isSome := by
    intro m hm
    obtain ⟨found, hfound⟩ := Option.isSome_iff_exists.mp hm
    rw [hgrown.lookup hfound]
    rfl
  have h₁ : Anchored env { app with repo := repo₁ } := by
    refine h.of_grows ?_ hgrows (Or.inl ⟨hgrown.head, rfl⟩) rfl (fun _ => rfl) rfl rfl
    intro m t hm
    rcases hgrown.named m t hm with hm | hm
    · exact h.named m t hm
    · exact hm
  have htracks : Tracks env none app { app with repo := repo₁ } := by
    refine .of_exists rfl (fun k hk => hgrows k (h.headExists k hk)) ⟨fun k hk => ?_, fun hno =>
      ⟨hno, hgrown.head, rfl, fun k t _ ht => hgrown.kept k t ht⟩⟩
    -- the ref that `HEAD` is attached to existed before, so it is not the new one
    have hattached : app.repo.head = .attached k := hgrown.head.symm.trans hk
    refine ⟨hattached, ?_⟩
    have hresolves := h.headResolves
    unfold Repository.lookup at hresolves
    rw [if_pos rfl, hattached, Option.isSome_map] at hresolves
    obtain ⟨t, ht⟩ := Option.isSome_iff_exists.mp hresolves
    exact (hgrown.kept k t ht).trans ht.symm
  have hnew : RevExists repo₁ ⟨.ofRef ref, 0, .allowed⟩ := by
    rintro _ ⟨⟩
    rw [hcurrent]
    rfl
  refine .read_bind ?_
  split
  · exact .fail
  · next i _ =>
      refine .update_bind (reload_tracks ?_ (htracks.trans_sameRefs (.of_repo rfl rfl rfl)))
      refine { h₁ with revs := ?_, selection := ?_ }
      · intro rev hrev
        rcases List.eq_or_mem_of_mem_insertIdx hrev with rfl | hrev
        · exact hnew
        · exact h₁.revs rev hrev
      · rintro _ ⟨⟩
        exact hnew

theorem revCreate_tracks (h : Anchored env app) (branch : Bool) (template : Rev)
    (commit : Commit) :
    Program.Returns (revCreate env inputs branch template commit) app fun _ app' =>
      Settled env app' ∧ Tracks env none app app' := by
  have hhead : ∀ repo' : Repository, repo'.head = app.repo.head →
      repo'.head ≠ .attached headFile := by
    intro repo' hsame
    rw [hsame]
    exact h.ready.headName
  refine revCreate_ends trivial (fun ref => ?_) fun x hx => ?_
  · refine .zoom (Program.Ends.mono (branchNameLocal_ends ref) ?_ fun _ _ _ => trivial)
    rintro - _ rfl
    rfl
  · cases hx with
    | branch l =>
        exact revCreate_end_tracks h
          (createFirst_grows l fun n _ _ => branchCreate_grows n commit) template commit
    | copy name =>
        exact revCreate_end_tracks h (createFirst_grows _ fun n repo' hsame =>
          refCopy_grows (hhead repo' hsame) _ n _) template commit

end Create

/-! ## Commit operations -/

section Operations

open Modify

variable [DecidableEq κ] {env : Env κ ω} {inputs : Inputs κ} {app : App κ ω} {op : Op}

/-- The refs that an operation rewrites may be changed, and exist. -/
def TargetsExist (repo : Repository) (op : Op) : Prop :=
  ∀ ref ∈ op.targets, ref.isMutable = true ∧ (repo.lookup ref.fullName).isSome

/-- The revs of a result exist. -/
def ResultExists (repo : Repository) (r : OpResult) : Prop :=
  (∀ rev, r.src.rev = some rev → RevExists repo rev) ∧
    ∀ rev, r.dst.rev = some rev → RevExists repo rev

omit [DecidableEq κ] in
theorem revReplace_sameRefs (h : Anchored env app) {rev : Rev} {ref : Ref}
    (hmutable : ref.isMutable = true) (hexists : (app.repo.lookup ref.fullName).isSome)
    (commit : Option Commit) :
    Program.Ends (revReplace (gitCtx env inputs) rev ref commit) app
      (fun rev' app' => Anchored env app' ∧ SameRefs app app' ∧ RevExists app'.repo rev')
      fun e _ => NotCanceled e := by
  unfold revReplace
  cases commit with
  | none => exact .fail nofun
  | some commit =>
      refine .bind (((gitRefReplace_sameRefs h hmutable hexists commit).and
        (gitRefReplace_yields ref commit app)).mono ?_ fun _ _ he => he.2)
      rintro ref' app' ⟨⟨h', hsame, hcurrent, -⟩, -⟩
      refine .bind (call_ends ?_ fun _ _ => nofun)
      refine .pure ⟨h', hsame, ?_⟩
      rintro _ ⟨⟩
      rw [hcurrent]
      rfl

omit [DecidableEq κ] in
theorem SameRefs.revExists {app' : App κ ω} (h : SameRefs app app') {rev : Rev}
    (hrev : RevExists app.repo rev) : RevExists app'.repo rev := by
  intro ref href
  rw [h.exists_eq]
  exact hrev ref href

omit [DecidableEq κ] in
theorem replacing_sameRefs (h : Anchored env app)
    (hsrc : ∀ rev, op.src.rev = some rev → RevExists app.repo rev)
    (htargets : TargetsExist app.repo op) {x : Program (App κ ω) Exn (Option OpResult)}
    (hx : Replacing (gitCtx env inputs) op x) :
    Program.Ends x app
      (fun result app' => Anchored env app' ∧ SameRefs app app' ∧
        ∃ r, result = some r ∧ ResultExists app'.repo r)
      fun e _ => NotCanceled e := by
  cases hx with
  | src commit hrev href htarget hres hresDst hopDst =>
      obtain ⟨hmutable, hexists⟩ := htargets _ (by rw [htarget]; exact List.mem_cons_self)
      refine .bind ((revReplace_sameRefs h hmutable hexists commit).mono ?_ fun _ _ he => he)
      rintro r app₁ ⟨h₁, hsame, hr⟩
      refine .pure ⟨h₁, hsame, _, rfl, fun rev hrev' => ?_, fun rev hrev' => ?_⟩
      · rw [hres] at hrev'
        cases hrev'
        exact hr
      · rw [hresDst] at hrev'
        cases hrev'
  | dst commit hopSrc hrev href htarget hres hresDst =>
      obtain ⟨hmutable, hexists⟩ := htargets _ (by rw [htarget]; exact List.mem_cons_self)
      refine .bind ((revReplace_sameRefs h hmutable hexists commit).mono ?_ fun _ _ he => he)
      rintro r app₁ ⟨h₁, hsame, hr⟩
      refine .pure ⟨h₁, hsame, _, rfl, fun rev hrev' => ?_, fun rev hrev' => ?_⟩
      · rw [hres] at hrev'
        cases hrev'
        exact hsame.revExists (hsrc _ hopSrc)
      · rw [hresDst] at hrev'
        cases hrev'
        exact hr
  | both srcCommit dstCommit hopSrc hopDst hsrcRef hdstRef hne htarget hres hresDst =>
      obtain ⟨hmutable, hexists⟩ := htargets _ (by rw [htarget]; exact List.mem_cons_self)
      obtain ⟨hmutable', hexists'⟩ := htargets _
        (by rw [htarget]; exact List.mem_cons_of_mem _ List.mem_cons_self)
      refine .bind ((revReplace_sameRefs h hmutable hexists _).mono ?_ fun _ _ he => he)
      rintro r app₁ ⟨h₁, hsame, hr⟩
      -- the source was replaced first, and the destination still exists
      rw [← hsame.exists_eq] at hexists'
      refine .bind ((revReplace_sameRefs h₁ hmutable' hexists' _).mono ?_ fun _ _ he => he)
      rintro r' app₂ ⟨h₂, hsame', hr'⟩
      refine .pure ⟨h₂, hsame.trans hsame', _, rfl, fun rev hrev' => ?_, fun rev hrev' => ?_⟩
      · rw [hres] at hrev'
        cases hrev'
        exact hsame'.revExists hr
      · rw [hresDst] at hrev'
        cases hrev'
        exact hr'

omit [DecidableEq κ] in
/-- An operation without a result changed nothing but the outside. -/
theorem exec_sameRefs (h : Settled env app)
    (hsrc : ∀ rev, op.src.rev = some rev → RevExists app.repo rev)
    (htargets : TargetsExist app.repo op) :
    Program.Returns (exec (gitCtx env inputs) op) app fun result app' =>
      Anchored env app' ∧ SameRefs app app' ∧ (result = none → Settled env app') ∧
        ∀ r, result = some r → ResultExists app'.repo r := by
  have hout : ∀ app', OnlyOutside app app' → Settled env app' ∧ SameRefs app app' := by
    intro app' happ
    rw [happ]
    exact ⟨h.congr rfl rfl rfl rfl rfl h.selection, .of_repo rfl rfl rfl⟩
  have hdispatch : Program.Ends (dispatch (gitCtx env inputs) op) app
      (fun result app' => Anchored env app' ∧ SameRefs app app' ∧
        (result = none → Settled env app') ∧ ∀ r, result = some r → ResultExists app'.repo r)
      fun e app' => NotCanceled e ∨ Settled env app' ∧ SameRefs app app' := by
    unfold Program.Ends
    -- an operation works outside first and then replaces its refs, if it comes to that
    rcases prepares_dispatch gitCtx_quiet op app with ⟨happ, hno⟩ | ⟨app₁, x, hx, happ, hrun⟩
    · rcases hrun : dispatch (gitCtx env inputs) op app with ⟨e | result, app'⟩
      · rw [hrun] at happ
        exact Or.inr (hout app' happ)
      · rw [hrun] at happ hno
        obtain ⟨h', hsame⟩ := hout app' happ
        refine ⟨h'.toAnchored, hsame, fun _ => h', ?_⟩
        rintro r rfl
        cases hno
    · obtain ⟨h₁, hsame⟩ := hout app₁ happ
      have hrepo : app₁.repo = app.repo := by rw [happ]
      have hends := replacing_sameRefs h₁.toAnchored (by rw [hrepo]; exact hsrc)
        (by rw [hrepo]; exact htargets) hx
      unfold Program.Ends at hends
      rw [hrun]
      rcases hrun' : x app₁ with ⟨e | result, app'⟩
      · rw [hrun'] at hends
        exact Or.inl hends
      · rw [hrun'] at hends
        obtain ⟨h', hsame', r, rfl, hresult⟩ := hends
        refine ⟨h', hsame.trans hsame', nofun, ?_⟩
        rintro _ ⟨⟩
        exact hresult
  unfold exec
  refine Program.Ends.handle (hdispatch.mono (fun _ _ hok => hok) ?_)
  intro e app' hcases
  -- a conflict that the user cancels is no error, and no ref was replaced by then
  split
  · next hcanceled =>
      rcases hcases with hnot | ⟨h', hsame⟩
      · exact absurd hcanceled hnot
      · exact .pure ⟨h'.toAnchored, hsame, fun _ => h', nofun⟩
  · exact .fail trivial

theorem opPush_returns (revPrev : Option Rev) (res : Res) :
    Program.Returns (opPush env inputs revPrev res) app fun _ app' =>
      ∃ repoState, app' = { app with repoState := repoState } := by
  unfold opPush
  split
  · exact .pure ⟨app.repoState, rfl⟩
  · next ref _ =>
      refine .bind (loadRef_returns ref) ?_
      rintro lref _ ⟨-, repoState, rfl⟩
      split
      · exact .pure ⟨_, rfl⟩
      · refine .bind (historyPush_returns ref _) ?_
        rintro - _ ⟨repoState₁, rfl⟩
        refine (snapshotInitialPush_returns ref).mono ?_
        rintro - _ ⟨repoState₂, rfl⟩
        exact ⟨_, rfl⟩

theorem gitOpExec_tracks (h : Settled env app) {asked : Option Bytes}
    (hsrc : ∀ rev, op.src.rev = some rev → RevExists app.repo rev)
    (htargets : TargetsExist app.repo op) :
    Program.Returns (gitOpExec env inputs op) app fun _ app' =>
      Settled env app' ∧ Tracks env asked app app' := by
  unfold gitOpExec
  refine .bind (exec_sameRefs h hsrc htargets) ?_
  rintro result app₁ ⟨h₁, hsame, hnone, hsome⟩
  cases result with
  | none => exact .pure ⟨hnone rfl, hsame.tracks h.toAnchored⟩
  | some r =>
      obtain ⟨hrsrc, hrdst⟩ := hsome r rfl
      dsimp only
      split
      · exact .fail
      · refine .bind (opPush_returns _ _) ?_
        rintro - _ ⟨repoState₁, rfl⟩
        refine .bind (opPush_returns _ _) ?_
        rintro - _ ⟨repoState₂, rfl⟩
        refine .update_bind (reload_tracks (h₁.congr rfl rfl rfl id rfl fun rev hrev => ?_)
          ((hsame.tracks h.toAnchored).trans_sameRefs (.of_repo rfl rfl rfl)))
        dsimp only at hrev
        split at hrev
        · exact hrdst rev hrev
        · exact hrsrc rev hrev

end Operations

/-! ## Every action -/

section Perform

open Modify

variable [DecidableEq κ] (env : Env κ ω) (inputs : Inputs κ)

/-- The short name that an action gives its ref. -/
def asked (app : App κ ω) : Action → Option Bytes
  | .rename _ name => some name
  | action => (app.restoredOf env inputs action).map fun x => x.2.name

/-- The full name of the ref that an action renames, and the short name it gets. -/
def renamesTo (app : App κ ω) : Action → Option (Bytes × Bytes)
  | .rename i name => (app.colRef i).map fun ref => (ref.fullName, name)
  | action => do
      let (ref, refState) ← app.restoredOf env inputs action
      let k ← renamedName env app.repo ref refState
      pure (k, refState.name)

variable {env inputs} {app : App κ ω}

omit [DecidableEq κ] in
/-- The rev of a mutable column. -/
theorem colRef_exists (h : Settled env app) {i : Nat} {ref : Ref}
    (hcol : app.colRef i = some ref) :
    ∃ rev, app.colRev i = some rev ∧ rev.ref = some ref ∧ ref.isMutable = true ∧
      (app.repo.lookup ref.fullName).isSome := by
  obtain ⟨col, hmem, hrev, hrevRef, hmutable⟩ := rev_of_colRef hcol
  exact ⟨col.rev, hrev, hrevRef, isMutable_of_rev hmutable hrevRef,
    (h.columns col hmem).exists ref hrevRef⟩

omit [DecidableEq κ] in
theorem selection_exists (h : Anchored env app) {rev : Rev} {ref : Ref}
    (hmutable : app.selectionIsMutable = true) (hrev : app.selection.rev = some rev)
    (href : rev.ref = some ref) :
    ref.isMutable = true ∧ (app.repo.lookup ref.fullName).isSome :=
  ⟨isMutable_of_rev (rev_of_selectionIsMutable hmutable hrev) href, h.selection rev hrev ref href⟩

/-- An action that restores a state names the ref as that state says. -/
theorem restored_found {action : Action} {ref : Ref} {refState : State.RefState κ}
    (hrestored : app.restoredOf env inputs action = some (ref, refState))
    (hfound : ∀ k name, app.renamesTo env inputs action = some (k, name) →
      RenameFound env app k name) :
    app.asked env inputs action = some refState.name ∧
      ∀ k, renamedName env app.repo ref refState = some k →
        RenameFound env app k refState.name := by
  have hasked : app.asked env inputs action =
      (app.restoredOf env inputs action).map fun x => x.2.name := by
    cases action with
    | rename i name => cases hrestored
    | _ => rfl
  constructor
  · rw [hasked, hrestored]
    rfl
  · intro k hk
    apply hfound
    cases action with
    | rename i name => cases hrestored
    | _ => simp [renamesTo, hrestored, hk]

/-- An operation that rewrites the selected rev alone. -/
theorem selectionOp_tracks (h : Settled env app) {asked : Option Bytes} (type : OpType)
    (hmutable : app.selectionIsMutable = true) :
    Program.Returns (gitOpExec env inputs (app.selectionOp type)) app fun _ app' =>
      Settled env app' ∧ Tracks env asked app app' := by
  refine gitOpExec_tracks h h.selection fun ref href => ?_
  obtain ⟨src, hsrc, hsrcRef⟩ := targets_selectionOp href
  exact selection_exists h.toAnchored hmutable hsrc hsrcRef

/-- An action that is offered, where the head's tag is found by its new name. -/
theorem perform_tracks (h : Settled env app) {action : Action}
    (hoffers : app.offers action = true)
    (hfound : ∀ k name, app.renamesTo env inputs action = some (k, name) →
      RenameFound env app k name) :
    Program.Returns (perform env inputs action) app fun _ app' =>
      Settled env app' ∧ Tracks env (app.asked env inputs action) app app' := by
  unfold perform
  refine .read_bind ?_
  cases action with
  | resize size =>
      refine .update_bind (reload_tracks ?_ (SameRefs.tracks (.of_repo rfl rfl rfl) h.toAnchored))
      exact h.toAnchored.congr rfl rfl rfl id rfl h.selection
  | select i commits shift =>
      refine .update ⟨h.congr rfl rfl rfl rfl rfl ?_,
        SameRefs.tracks (.of_repo rfl rfl rfl) h.toAnchored⟩
      intro rev hrev
      unfold selectionSelected at hrev
      dsimp only at hrev
      split at hrev
      · exact h.selection rev hrev
      · obtain ⟨col, hget, rfl⟩ := Option.map_eq_some_iff.mp hrev
        exact (h.columns col (List.mem_of_getElem? hget)).exists
  | deselect =>
      refine .update ⟨h.congr rfl rfl rfl rfl rfl ?_,
        SameRefs.tracks (.of_repo rfl rfl rfl) h.toAnchored⟩
      rintro _ ⟨⟩
  | drop i position copy =>
      refine gitOpExec_tracks h h.selection fun ref href => ?_
      rcases targets_drop hoffers rfl href with ⟨hmutable, src, hsrc, hsrcRef⟩ | hcol
      · exact selection_exists h.toAnchored hmutable hsrc hsrcRef
      · obtain ⟨-, -, -, hexists⟩ := colRef_exists h hcol
        exact hexists
  | deleteCommits => exact selectionOp_tracks h .delete (Bool.and_eq_true_iff.mp hoffers).2
  | combine =>
      simp only [offers, Bool.and_eq_true] at hoffers
      exact selectionOp_tracks h .combine hoffers.1.1
  | edit => exact selectionOp_tracks h .edit (Bool.and_eq_true_iff.mp hoffers).1
  | undo i =>
      obtain ⟨ref, hcol⟩ := colRef_of_canUndoRedo hoffers
      obtain ⟨rev, hrev, hrevRef, hmutable, hexists⟩ := colRef_exists h hcol
      simp only [hrev, withRev]
      refine undoRedo_tracks h.toAnchored hrevRef hmutable hexists fun x hx => ?_
      exact restored_found (restoredOf_undo hcol hx) hfound
  | redo i =>
      obtain ⟨ref, hcol⟩ := colRef_of_canUndoRedo hoffers
      obtain ⟨rev, hrev, hrevRef, hmutable, hexists⟩ := colRef_exists h hcol
      simp only [hrev, withRev]
      refine undoRedo_tracks h.toAnchored hrevRef hmutable hexists fun x hx => ?_
      exact restored_found (restoredOf_redo hcol hx) hfound
  | restore i choice =>
      obtain ⟨ref, hcol⟩ := Option.isSome_iff_exists.mp hoffers
      obtain ⟨rev, hrev, hrevRef, hmutable, hexists⟩ := colRef_exists h hcol
      simp only [hcol, withRev]
      refine snapshotRestore_tracks h hmutable hexists fun snapshot hchosen hdiffers => ?_
      exact restored_found (restoredOf_restore hcol hchosen hdiffers) hfound
  | rename i name =>
      obtain ⟨ref, hcol⟩ := colRef_of_rename hoffers
      obtain ⟨rev, hrev, hrevRef, hmutable, hexists⟩ := colRef_exists h hcol
      simp only [hcol, withRev]
      exact refRename_tracks h.toAnchored hmutable hexists
        (hfound _ _ (by simp [renamesTo, hcol]))
  | remove i =>
      obtain ⟨ref, hcol⟩ := Option.isSome_iff_exists.mp hoffers
      obtain ⟨rev, hrev, hrevRef, hmutable, hexists⟩ := colRef_exists h hcol
      simp only [hcol, withRev]
      exact refRemove_tracks h.toAnchored hmutable
  | duplicate i =>
      obtain ⟨rev, hrev⟩ := Option.isSome_iff_exists.mp hoffers
      simp only [hrev, withRev]
      exact revCreate_tracks h.toAnchored false rev rev.commit
  | branch col =>
      dsimp only
      unfold withRev
      split
      · exact .fail
      · split
        · exact .fail
        · exact revCreate_tracks h.toAnchored true _ _

end Perform

end App
end Debase
