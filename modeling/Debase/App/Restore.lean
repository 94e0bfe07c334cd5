import Debase.App.Linked

/-!
# Renaming a ref and restoring a state

`_gitRefRename` and `_refStateRestore`.  What they leave behind is `Moved`: one ref
has a new commit, a new name or both, its history moved with it, and nothing else
changed.  An exception leaves everything as it was if the new name was free, the
ref is found under it, and no late call failed.
-/

namespace Debase

open Git Library

namespace App

variable {κ ω : Type}

section Methods

variable {env : Env κ ω} {inputs : Inputs κ} {app : App κ ω}

/-! ## Renaming a ref -/

/-- A ref was renamed: everything that named it names the new one. -/
structure Renamed (app app' : App κ ω) (refPrev ref : Ref) : Prop where
  named : ∀ m t, app'.repo.refs m = some t → m = ref.fullName ∨ app.repo.refs m = some t
  lookupNew : app.repo.lookup ref.fullName = none
  lookupSelf : app'.repo.lookup ref.fullName = some ref
  lookupPrev : app'.repo.lookup refPrev.fullName = none
  lookupOther : ∀ m, m ≠ refPrev.fullName → m ≠ ref.fullName →
    app'.repo.lookup m = app.repo.lookup m
  headRests : HeadRests app app'
  headOther : app'.repo.head ≠ .attached refPrev.fullName
  repoState : app'.repoState = Function.update
    (Function.update app.repoState ref.fullName (app.repoState refPrev.fullName))
    refPrev.fullName none
  revs : app'.revs = app.revs.map (revRenamed refPrev ref)
  columns : app'.columns = app.columns
  size : app'.size = app.size
  head : app'.head =
    if Ref.same (app.head.bind GitRev.ref) (some refPrev) then
      app.head.map fun head => { head with ref := some ref }
    else app.head
  selection : app'.selection = selectionRenamed refPrev ref app.selection

theorem Ready.of_renamed {app' : App κ ω} {refPrev ref : Ref} (h : Ready env app)
    (hrenamed : Renamed app app' refPrev ref)
    (hname : env.names.normalize ref.fullName = some ref.fullName)
    (hne : refPrev.fullName ≠ headFile) (hne' : ref.fullName ≠ headFile) : Ready env app' where
  named := by
    intro m t hm
    rcases hrenamed.named m t hm with rfl | hold
    · exact hname
    · exact h.named m t hold
  headName := by
    rcases hrenamed.headRests with ⟨hhead, -⟩ | ⟨c, hhead⟩
    · rw [hhead]
      exact h.headName
    · rw [hhead]
      simp
  headResolves := by
    unfold Repository.headCommit
    rw [hrenamed.lookupOther headFile (Ne.symm hne) (Ne.symm hne')]
    exact h.headResolves
  headAttached := by
    intro m hm hmutable
    rcases hrenamed.headRests with ⟨hhead, hflag⟩ | ⟨c, hhead⟩
    · obtain ⟨hreattach, hhas⟩ := h.headAttached m (hhead ▸ hm) hmutable
      refine ⟨hflag.trans hreattach, ?_⟩
      -- `HEAD` is attached to another ref, so `_head` was not renamed
      have hother : Ref.same (app.head.bind GitRev.ref) (some refPrev) = false := by
        cases hsame : Ref.same (app.head.bind GitRev.ref) (some refPrev) with
        | false => rfl
        | true =>
            unfold Ref.same at hsame
            rw [hhas] at hsame
            have hm' : m = refPrev.fullName := by simpa using hsame
            exact absurd (hm' ▸ hm) hrenamed.headOther
      rw [hrenamed.head, hother]
      exact hhas
    · rw [hhead] at hm
      cases hm

/-- The end of `_gitRefRename`: the old ref is deleted. -/
theorem gitRefRename_end_ends (inputs : Inputs κ) {refPrev : Ref} (ref : Ref)
    (hmutable : refPrev.isMutable = true) (hresolves : app.repo.headCommit.isSome)
    (hrefs : app.repo.refs refPrev.fullName = some refPrev.target) :
    Program.Ends
      (do
        Program.update fun app : App κ ω =>
          { app with selection := selectionRenamed refPrev ref app.selection }
        inRepo (reflogRememberRef inputs.fault ref)
        inRepo (refDelete inputs.fault refPrev)
        pure ref) app
      (fun ref' app' => ref' = ref ∧ app' =
        { app with
          selection := selectionRenamed refPrev ref app.selection
          repo := app.repo.remove refPrev.fullName })
      (fun _ _ => inputs.fault.IsLate) := by
  refine .bind (.update (.bind (.zoom
    ((reflogRememberRef_ends ref hresolves).mono ?_ fun _ _ hlate => hlate.2))))
  rintro - _ rfl
  refine .bind (.zoom ((refDelete_ends hmutable hrefs).mono ?_ fun _ _ hlate => hlate.2))
  rintro - _ rfl
  exact .pure ⟨rfl, rfl⟩

/-- The rule for the head: it follows the ref that is renamed, and stays otherwise. -/
theorem headRenamed_ends {α : Type} {rest : Program (App κ ω) Exn α} {Q : α → App κ ω → Prop}
    {E : Exn → App κ ω → Prop} {wasHead : Bool} {ref : Ref}
    (h : Program.Ends rest
      { app with
        head := if wasHead then app.head.map fun head => { head with ref := some ref }
          else app.head } Q E) :
    Program.Ends
      (do
        if wasHead then
          Program.update fun app : App κ ω =>
            { app with head := app.head.map fun head => { head with ref := some ref } }
        rest) app Q E := by
  cases wasHead with
  | true => exact .bind (.update h)
  | false => exact h

/-- The rule for the head: it is gone with its ref, and stays otherwise. -/
theorem headDeleted_ends {α : Type} {rest : Program (App κ ω) Exn α} {Q : α → App κ ω → Prop}
    {E : Exn → App κ ω → Prop} {wasHead : Bool}
    (h : Program.Ends rest { app with head := if wasHead then none else app.head } Q E) :
    Program.Ends
      (do
        if wasHead then Program.update fun app : App κ ω => { app with head := none }
        rest) app Q E := by
  cases wasHead with
  | true => exact .bind (.update h)
  | false => exact h

/-- A copy of the ref under this name is found by its short name, if one can be made. -/
def RenameClear (names : RefNames) (repo : Repository) (ref : Ref) (name : Bytes) : Prop :=
  Creatable names repo ref name → CopyClear names repo ref name

instance (names : RefNames) (repo : Repository) (ref : Ref) (name : Bytes) :
    Decidable (RenameClear names repo ref name) :=
  inferInstanceAs (Decidable (_ → _))

/-- Whatever was created under the name is found by its short name. -/
theorem RenameClear.of_created {names : RefNames} {repo : Repository} {ref : Ref} {name k : Bytes}
    (h : RenameClear names repo ref name) (hk : names.normalize (ref.copyDir ++ name) = some k)
    (hfree : repo.refs k = none) : CopyClear names repo ref name := by
  intro hbranch
  refine h ⟨fun hbranch' => ?_, k, hk, hfree⟩ hbranch
  rw [hbranch] at hbranch'
  cases hbranch'

/-- A ref is renamed once its copy is written, its history has moved to the new name,
`HEAD` has left it and it is removed. -/
theorem Renamed.of_removed {app₃ : App κ ω} {refPrev : Ref} {k : Bytes} {t : Target}
    (h : Ready env app) (hne : refPrev.fullName ≠ headFile) (hkhead : k ≠ headFile)
    (hprev : refPrev.fullName ≠ k) (hfree : app.repo.refs k = none)
    (hrests : Rests
      { app with
        repo := app.repo.write k t
        revs := app.revs.map (revRenamed refPrev (t.handle k))
        repoState := Function.update (Function.update app.repoState k
          (app.repoState refPrev.fullName)) refPrev.fullName none } app₃)
    (hdetached : app₃.repo.head ≠ .attached refPrev.fullName) :
    Renamed app
      { app₃ with
        head := if Ref.same (app.head.bind GitRev.ref) (some refPrev) then
            app₃.head.map fun head => { head with ref := some (t.handle k) }
          else app₃.head
        selection := selectionRenamed refPrev (t.handle k) app₃.selection
        repo := app₃.repo.remove refPrev.fullName } refPrev (t.handle k) where
  named := by
    intro m u hm
    have hmprev : m ≠ refPrev.fullName := by
      rintro rfl
      rw [Repository.refs_remove_self] at hm
      cases hm
    rw [Repository.refs_remove_of_ne hmprev, hrests.refs] at hm
    by_cases hmk : m = k
    · exact Or.inl hmk
    · exact Or.inr ((Repository.refs_write_of_ne hmk).symm.trans hm)
  lookupNew := by
    rw [Target.fullName_handle, Repository.lookup_of_ne hkhead, hfree]
    rfl
  lookupSelf := (hrests.lookup_remove hdetached (Ne.symm hprev)).trans
    (Repository.lookup_write_self hkhead)
  lookupPrev := by
    show (app₃.repo.remove refPrev.fullName).lookup refPrev.fullName = none
    exact Repository.lookup_remove_self hne
  lookupOther m hm hmk := (hrests.lookup_remove hdetached hm).trans
    (Repository.lookup_write_of_ne (h.head_ne_attached hfree) hmk)
  headRests := hrests.headRests
  headOther := hdetached
  repoState := hrests.repoState
  revs := hrests.revs
  columns := hrests.columns
  size := hrests.size
  head := by rw [hrests.head]
  selection := by rw [hrests.selection]

theorem gitRefRename_ends (h : Ready env app) {refPrev : Ref} {name : Bytes}
    (hcurrent : app.repo.Current refPrev) (hmutable : refPrev.isMutable = true)
    (hloaded : (app.repoState refPrev.fullName).isSome)
    (hclear : RenameClear env.names app.repo refPrev name) :
    Program.Ends (gitRefRename env inputs refPrev name) app
      (fun ref app' => Renamed app app' refPrev ref ∧ Ready env app' ∧
        ref.commit = refPrev.commit ∧
        env.names.normalize (refPrev.copyDir ++ name) = some ref.fullName)
      (fun e app' => e ≠ .abort → ¬inputs.fault.IsLate → Rests app app' ∧
        (Creatable env.names app.repo refPrev name →
          inputs.fault.At (.branchCreate name) ∨ inputs.fault.At (.tagCreate name))) := by
  have hne := Ref.ne_headFile_of_isMutable hmutable
  have hrefs := hcurrent.refs hne
  have hdir := (Ref.copyDir_of_isMutable hmutable).1
  unfold gitRefRename
  refine .bind (.zoom ((refCopy_ends h.headName refPrev name none).mono ?_ ?_))
  · rintro ref repo₁ ⟨k, t, hk, hfree, hcommit, rfl, hcurrent', hfound⟩
    obtain rfl := hfound (hclear.of_created hk hfree)
    have hk' := env.names.normalize_normalize hk
    have hkhead := Repository.ne_headFile_of_dir hdir (env.names.normalize_dir hdir hk).2
    have hprev : refPrev.fullName ≠ k := by
      rintro rfl
      rw [hrefs] at hfree
      cases hfree
    let app₂ : App κ ω :=
      { app with
        repo := app.repo.write k t
        revs := app.revs.map (revRenamed refPrev (t.handle k))
        repoState := Function.update
          (Function.update app.repoState k (app.repoState refPrev.fullName)) refPrev.fullName none }
    have hready : Ready env app₂ := (h.created t hk' hkhead hfree).congr rfl rfl rfl
    refine .bind (.update (.bind ?_))
    -- the histories move to the new name
    have hstate : State.refReplace app.repoState refPrev.fullName k = some app₂.repoState := by
      obtain ⟨lref, hlref⟩ := Option.isSome_iff_exists.mp hloaded
      unfold State.refReplace
      rw [if_neg hprev, hlref]
      simp only [app₂, hlref]
    unfold repoStateRefReplace
    refine .bind (.read ?_)
    simp only [Target.fullName_handle, if_neg hprev, hstate]
    refine .update (.bind ((gitDetachHeadIfEqual_ends hready refPrev).mono ?_
      fun _ _ hfault _ hlate => absurd hfault hlate))
    rintro wasHead app₃ ⟨rfl, hrests, hdetached⟩
    have hready₃ := hready.of_rests hrests
    have hrefs₃ : app₃.repo.refs refPrev.fullName = some refPrev.target := by
      rw [hrests.refs]
      exact (Repository.refs_write_of_ne hprev).trans hrefs
    have hdetached₃ := hdetached (mutableName_of_isMutable hmutable)
    have hrenamed := Renamed.of_removed h hne hkhead hprev hfree hrests hdetached₃
    refine headRenamed_ends ?_
    refine (gitRefRename_end_ends inputs (t.handle k) hmutable ?_ ?_).mono ?_ ?_
    · exact hready₃.headResolves
    · exact hrefs₃
    · rintro _ _ ⟨rfl, rfl⟩
      exact ⟨hrenamed, h.of_renamed hrenamed hk' hne hkhead, hcommit, hk⟩
    · exact fun _ _ hfault _ hlate => absurd hfault hlate
  · rintro e repo₁ ⟨hrepo, hfailed⟩ habort hlate
    rcases hrepo with rfl | ⟨k, t, hk, hfree, -⟩
    · exact ⟨refl_of Rests app, fun hcreatable =>
        (hfailed (hclear hcreatable) habort hlate).2 hmutable hcreatable⟩
    · obtain ⟨rfl, hat⟩ := hfailed (hclear.of_created hk hfree) habort hlate
      exact ⟨refl_of Rests app, hat hmutable⟩

/-! ## Restoring a state -/

/-- The name of a rev's ref. -/
def revName (rev : Rev) : Option Bytes := rev.ref.map Ref.fullName

/-- A name after a ref was renamed. -/
def renameIn (k k' : Bytes) (name : Option Bytes) : Option Bytes :=
  if name = some k then some k' else name

/-- The histories after a ref was renamed. -/
def moveKey (k k' : Bytes) (loaded : State.LoadedRefs κ) : State.LoadedRefs κ :=
  if k = k' then loaded else Function.update (Function.update loaded k' (loaded k)) k none

/-- The ref `k` became `ref`: its commit and its name may both have changed. -/
structure Moved (app app' : App κ ω) (k : Bytes) (ref : Ref) : Prop where
  lookupSelf : app'.repo.lookup ref.fullName = some ref
  lookupOther : ∀ m, m ≠ k → m ≠ ref.fullName → app'.repo.lookup m = app.repo.lookup m
  lookupPrev : k ≠ ref.fullName →
    app'.repo.lookup k = none ∧ app.repo.lookup ref.fullName = none
  repoState : app'.repoState = moveKey k ref.fullName app.repoState
  revs : app'.revs.map revName = app.revs.map fun rev => renameIn k ref.fullName (revName rev)
  columns : app'.columns = app.columns
  size : app'.size = app.size
  head : (app'.head.bind GitRev.ref).map Ref.fullName =
    renameIn k ref.fullName ((app.head.bind GitRev.ref).map Ref.fullName)

@[simp] theorem renameIn_self (k : Bytes) (name : Option Bytes) : renameIn k k name = name := by
  unfold renameIn
  split
  · next h => exact h.symm
  · rfl

@[simp] theorem moveKey_self (k : Bytes) (loaded : State.LoadedRefs κ) :
    moveKey k k loaded = loaded := if_pos rfl

theorem revName_revRenamed (refPrev ref : Ref) (rev : Rev) :
    revName (revRenamed refPrev ref rev) =
      renameIn refPrev.fullName ref.fullName (revName rev) := by
  unfold revRenamed renameIn revName Ref.same
  by_cases h : rev.ref.map Ref.fullName = some refPrev.fullName
  · simp [h]
  · simp [h]

theorem Moved.of_wrote {app' : App κ ω} {k : Bytes} {t : Target} (h : Wrote app app' k t) :
    Moved app app' k (t.handle k) where
  lookupSelf := h.lookupSelf
  lookupOther m hm _ := h.lookupOther m hm
  lookupPrev hne := absurd rfl hne
  repoState := by simp [h.repoState]
  revs := by simp [h.revs]
  columns := h.columns
  size := h.size
  head := by simp [h.head]

theorem Moved.refl {ref : Ref} (hcurrent : app.repo.Current ref) :
    Moved app app ref.fullName ref where
  lookupSelf := hcurrent
  lookupOther _ _ _ := rfl
  lookupPrev hne := absurd rfl hne
  repoState := by simp
  revs := by simp
  columns := rfl
  size := rfl
  head := by simp

/-- A ref is renamed after its commit may have changed. -/
theorem Moved.renamed {app₁ app' : App κ ω} {refPrev ref : Ref}
    (h : Moved app app₁ refPrev.fullName refPrev) (hrenamed : Renamed app₁ app' refPrev ref) :
    Moved app app' refPrev.fullName ref where
  lookupSelf := hrenamed.lookupSelf
  lookupOther m hm hm' := (hrenamed.lookupOther m hm hm').trans (h.lookupOther m hm hm)
  lookupPrev hne := by
    refine ⟨hrenamed.lookupPrev, ?_⟩
    rw [← h.lookupOther ref.fullName (Ne.symm hne) (Ne.symm hne)]
    exact hrenamed.lookupNew
  repoState := by
    have hne : refPrev.fullName ≠ ref.fullName := by
      intro heq
      have hself := h.lookupSelf
      rw [heq, hrenamed.lookupNew] at hself
      cases hself
    rw [hrenamed.repoState, h.repoState, moveKey_self, moveKey, if_neg hne]
  revs := by
    have hrevs := h.revs
    simp only [renameIn_self] at hrevs
    rw [hrenamed.revs, List.map_map]
    have hcomp : revName ∘ revRenamed refPrev ref =
        renameIn refPrev.fullName ref.fullName ∘ revName := by
      funext rev
      exact revName_revRenamed refPrev ref rev
    rw [hcomp, ← List.map_map, hrevs, List.map_map]
    rfl
  columns := hrenamed.columns.trans h.columns
  size := hrenamed.size.trans h.size
  head := by
    have hhead := h.head
    rw [renameIn_self] at hhead
    rw [← hhead, hrenamed.head]
    by_cases hsame : (app₁.head.bind GitRev.ref).map Ref.fullName = some refPrev.fullName
    · have hdec : Ref.same (app₁.head.bind GitRev.ref) (some refPrev) = true := decide_eq_true hsame
      rw [if_pos hdec, renameIn, if_pos hsame]
      cases hx : app₁.head with
      | none => simp [hx] at hsame
      | some x => rfl
    · have hdec : ¬Ref.same (app₁.head.bind GitRev.ref) (some refPrev) = true :=
        fun hsame' => hsame (of_decide_eq_true hsame')
      rw [if_neg hdec, renameIn, if_neg hsame]

/-- If the head of the state is found, the ref is found under the short names it is
looked up by, and the name it gets is the name of the state. -/
structure Restorable (env : Env κ ω) (app : App κ ω) (ref : Ref) (refState : State.RefState κ) :
    Prop where
  replaced : ∀ commit, env.ids.commit refState.head = some commit → commit ≠ ref.commit →
    CopyClear env.names app.repo ref ref.name
  renamed : ∀ commit, env.ids.commit refState.head = some commit → ref.name ≠ refState.name →
    RenameClear env.names app.repo ref refState.name
  normal : ∀ commit, env.ids.commit refState.head = some commit → ref.name ≠ refState.name →
    ∀ k, env.names.normalize (ref.copyDir ++ refState.name) = some k →
      k = ref.copyDir ++ refState.name

/-- The name can be taken once the commit is replaced. -/
def RestoreFree (env : Env κ ω) (inputs : Inputs κ) (app : App κ ω) (ref : Ref)
    (refState : State.RefState κ) : Prop :=
  ∀ commit, env.ids.commit refState.head = some commit → commit ≠ ref.commit →
    ref.name ≠ refState.name →
      Creatable env.names app.repo ref refState.name ∧
        ¬inputs.fault.At (.branchCreate refState.name) ∧
        ¬inputs.fault.At (.tagCreate refState.name)

/-- A free name stays free while another commit is written to the ref. -/
theorem creatable_of_lookup {names : RefNames} {repo repo' : Repository} {ref ref' : Ref}
    {name : Bytes} (h : Creatable names repo ref name)
    (hdir : ref.copyDir = Ref.headsDir ∨ ref.copyDir = Ref.tagsDir)
    (hexists : (repo.lookup ref.fullName).isSome) (hsame : ref'.fullName = ref.fullName)
    (hlookup : ∀ m, m ≠ ref.fullName → repo'.lookup m = repo.lookup m) :
    Creatable names repo' ref' name := by
  obtain ⟨hhead, k, hk, hfree⟩ := h
  have hkne := Repository.ne_headFile_of_dir hdir (names.normalize_dir hdir hk).2
  have hnone : repo.lookup k = none := by
    rw [Repository.lookup_of_ne hkne, hfree]
    rfl
  have hother : k ≠ ref.fullName := by
    rintro rfl
    rw [hnone] at hexists
    cases hexists
  refine ⟨fun hbranch => hhead (Ref.isBranch_congr hsame ▸ hbranch), k, ?_, ?_⟩
  · rw [Ref.copyDir_congr hsame, hk]
  · have hnone' := (hlookup k hother).trans hnone
    rw [Repository.lookup_of_ne hkne] at hnone'
    simpa using hnone'

theorem headLookup_ends (id : κ) :
    Program.Ends (headLookup env inputs id) app
      (fun commit app' => app' = app ∧ env.ids.commit id = some commit)
      (fun _ app' => app' = app) := by
  unfold headLookup
  refine .handle (.bind (call_ends ?_ fun _ _ => .fail rfl))
  cases hid : env.ids.commit id with
  | none => exact .fail (.fail rfl)
  | some commit => exact .pure ⟨rfl, rfl⟩

theorem refStateRestore_ends (h : Ready env app) {ref : Ref} {refState : State.RefState κ}
    (hcurrent : app.repo.Current ref) (hmutable : ref.isMutable = true)
    (hloaded : (app.repoState ref.fullName).isSome) (hclear : Restorable env app ref refState) :
    Program.Ends (refStateRestore env inputs ref refState) app
      (fun ref' app' => Moved app app' ref.fullName ref' ∧ Ready env app' ∧
        ref'.name = refState.name ∧ env.ids.commit refState.head = some ref'.commit ∧
        (env.ids.commit refState.head = some ref.commit → ref.name = refState.name → app' = app))
      (fun e app' => e ≠ .abort → ¬inputs.fault.IsLate →
        RestoreFree env inputs app ref refState → Rests app app') := by
  have hne := Ref.ne_headFile_of_isMutable hmutable
  have hnorm := h.named _ _ (hcurrent.refs hne)
  obtain ⟨hdir, hfull, -⟩ := Ref.copyDir_of_isMutable hmutable
  -- what is left once the ref has its commit
  have hrest : ∀ (commit : Commit) (ref₁ : Ref) (app₁ : App κ ω),
      env.ids.commit refState.head = some commit → ref₁.commit = commit →
      ref₁.fullName = ref.fullName → Moved app app₁ ref.fullName ref₁ → Ready env app₁ →
      (commit = ref.commit → app₁ = app) →
      Program.Ends
        (if ref₁.name ≠ refState.name then gitRefRename env inputs ref₁ refState.name
          else pure ref₁) app₁
        (fun ref' app' => Moved app app' ref.fullName ref' ∧ Ready env app' ∧
          ref'.name = refState.name ∧ env.ids.commit refState.head = some ref'.commit ∧
          (env.ids.commit refState.head = some ref.commit → ref.name = refState.name →
            app' = app))
        (fun e app' => e ≠ .abort → ¬inputs.fault.IsLate →
          RestoreFree env inputs app ref refState → Rests app app') := by
    intro commit ref₁ app₁ hid hcommit hsame hmoved hready hunchanged
    have hname₁ := Ref.name_congr hsame
    have hdir₁ := Ref.copyDir_congr hsame
    by_cases hstays : ref₁.name = refState.name
    · rw [if_neg (not_not.mpr hstays)]
      refine .pure ⟨hmoved, hready, hstays, by rw [hid, hcommit], fun hhead _ => hunchanged ?_⟩
      exact Option.some.inj (hid.symm.trans hhead)
    · rw [if_pos hstays]
      have hchange : ref.name ≠ refState.name := hname₁ ▸ hstays
      have hmutable₁ : ref₁.isMutable = true := by rw [Ref.isMutable_congr hsame, hmutable]
      have hstays' : ∀ m, app.repo.lookup m = none → app₁.repo.lookup m = none := by
        intro m hm
        have hother : m ≠ ref.fullName := by
          rintro rfl
          rw [hcurrent] at hm
          cases hm
        rw [hmoved.lookupOther m hother (hsame ▸ hother), hm]
      have hloaded₁ : (app₁.repoState ref₁.fullName).isSome := by
        rw [hmoved.repoState, hsame, moveKey_self]
        exact hloaded
      have hcurrent₁ : app₁.repo.Current ref₁ := hmoved.lookupSelf
      have hothers : ∀ m, m ≠ ref.fullName → app₁.repo.lookup m = app.repo.lookup m :=
        fun m hm => hmoved.lookupOther m hm (hsame ▸ hm)
      have hclear₁ : RenameClear env.names app₁.repo ref₁ refState.name := by
        intro hcreatable hbranch
        refine tagNameClear_mono ?_ hstays'
        refine hclear.renamed commit hid hchange ?_ (Ref.isBranch_congr hsame ▸ hbranch)
        refine creatable_of_lookup hcreatable (hdir₁ ▸ hdir) ?_ hsame.symm fun m hm => ?_
        · rw [hcurrent₁, Option.isSome_some]
        · exact (hothers m (hsame ▸ hm)).symm
      refine (gitRefRename_ends hready hcurrent₁ hmutable₁ hloaded₁ hclear₁).mono ?_ ?_
      · rintro ref' app' ⟨hrenamed, hready', hcommit', hk⟩
        rw [hdir₁] at hk
        have hfull' : ref'.fullName = ref.copyDir ++ refState.name :=
          hclear.normal commit hid hchange _ hk
        refine ⟨?_, hready', ?_, ?_, fun _ heq => absurd heq hchange⟩
        · rw [← hsame] at hmoved ⊢
          exact hmoved.renamed hrenamed
        · rw [Ref.name, hfull', Ref.shorthand_append hdir]
        · rw [hid, hcommit', hcommit]
      · intro e app' hfailed habort hlate hfree
        obtain ⟨hrests, hat⟩ := hfailed habort hlate
        by_cases hcommit₀ : commit = ref.commit
        · rw [← hunchanged hcommit₀]
          exact hrests
        · -- the name was free before the commit was replaced, so it is free now
          obtain ⟨hcreatable, hbranch, htag⟩ := hfree commit hid hcommit₀ hchange
          have hcreatable₁ : Creatable env.names app₁.repo ref₁ refState.name := by
            refine creatable_of_lookup hcreatable hdir ?_ hsame hothers
            rw [hcurrent, Option.isSome_some]
          rcases hat hcreatable₁ with h' | h'
          · exact absurd h' hbranch
          · exact absurd h' htag
  unfold refStateRestore
  refine .bind ((headLookup_ends refState.head).mono ?_ fun _ _ happ _ _ _ => happ ▸ refl_of Rests app)
  rintro commit app₀ ⟨happ, hid⟩
  rw [happ]
  by_cases hcommit : ref.commit = commit
  · rw [if_neg (not_not.mpr hcommit)]
    exact .bind (.pure (hrest commit ref app hid hcommit rfl (.refl hcurrent) h fun _ => rfl))
  · rw [if_pos hcommit]
    have hclear₀ := hclear.replaced commit hid fun heq => hcommit heq.symm
    refine .bind ((gitRefReplace_ends h hcurrent hmutable hclear₀ commit).mono ?_
      fun _ _ hfailed habort hlate _ => (hfailed habort hlate).1)
    rintro ref₁ app₁ ⟨ann, hwrote, rfl⟩
    exact hrest commit _ app₁ hid rfl rfl (.of_wrote hwrote) (h.of_wrote hwrote hnorm hne)
      fun heq => absurd heq.symm hcommit

end Methods

end App
end Debase
