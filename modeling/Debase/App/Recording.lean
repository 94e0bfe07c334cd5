import Debase.App.Commits
import Debase.App.Tracked

/-!
# Histories that follow the actions

Every action that succeeds leaves the histories linked to their refs, and what they record is
what an observer of the repository has seen, as long as the action does not push on a history
that is loaded late, or names a tag so that another ref is found under the name.
-/

namespace Debase

open Git Library

namespace App

variable {κ ω : Type}

section Methods

variable {env : Env κ ω} {inputs : Inputs κ} {app app' : App κ ω}

/-! ## Refs that come and go -/

/-- An action that is not about the ref of a column, where every ref of the repository was kept
with its history or is new. -/
theorem advances_of_others (h : Linked env app) {action : Action}
    (hcol : app.columnRef action = none)
    (hothers : ∀ m, (app'.repo.lookup m).isSome →
      app'.repo.lookup m = app.repo.lookup m ∧
          HistoryKept env app.repo app.repoState app'.repoState m ∨
        app.repo.lookup m = none ∧ HistoryKept env app'.repo (fun _ => none) app'.repoState m) :
    recorded env app'.repo app'.repoState =
      advance app app' action (recorded env app.repo app.repoState) := by
  ext1 m
  cases href : app'.repo.lookup m with
  | none => simp [recorded, advance, href]
  | some ref =>
      rcases hothers m (by rw [href]; rfl) with ⟨hlookup, hkept⟩ | ⟨hfree, hkept⟩
      · refine advance_of_kept h hlookup (hlookup.symm.trans href) hkept ?_
        rw [hcol]
        exact (Option.some_ne_none m).symm
      · exact advance_of_new href hfree hcol hkept

/-- A ref without a loaded history: there is none before the ref is created. -/
theorem repoState_of_free (h : Linked env app) {m : Bytes} (hm : app.repo.lookup m = none) :
    app.repoState m = none := by
  cases hlref : app.repoState m with
  | none => rfl
  | some lref =>
      obtain ⟨-, ref, href, -⟩ := h.loaded m lref hlref
      rw [hm] at href
      cases href

/-! ### A ref is created -/

section Create

variable [DecidableEq κ]

omit [DecidableEq κ] in
/-- New refs take no lookup away. -/
theorem Linked.of_grown (h : Linked env app) {repo : Repository}
    (hgrown : Grown env.names app.repo repo) : Linked env { app with repo := repo } := by
  have hlookup : ∀ m found, app.repo.lookup m = some found → repo.lookup m = some found :=
    fun m found hfound => hgrown.lookup hfound
  have hexists : ∀ m, (app.repo.lookup m).isSome → (repo.lookup m).isSome := by
    intro m hm
    obtain ⟨found, hfound⟩ := Option.isSome_iff_exists.mp hm
    rw [hlookup m found hfound]
    rfl
  have hcurrent : ∀ rev, RevCurrent app.repo rev → RevCurrent repo rev :=
    fun rev hrev ref href => ⟨hlookup _ ref (hrev ref href).1, (hrev ref href).2⟩
  exact
    { named := by
        intro m t hm
        rcases hgrown.named m t hm with hold | hname
        · exact h.named m t hold
        · exact hname
      headName := by
        show repo.head ≠ .attached headFile
        rw [hgrown.head]
        exact h.headName
      headResolves := by
        have hresolves := h.headResolves
        unfold Repository.headCommit at hresolves ⊢
        rw [Option.isSome_map] at hresolves ⊢
        exact hexists _ hresolves
      headAttached := by
        show ∀ m, repo.head = .attached m → _
        rw [hgrown.head]
        exact h.headAttached
      loaded := by
        intro m lref hm
        obtain ⟨hname, found, hfound, hcommit⟩ := h.loaded m lref hm
        exact ⟨hname, found, hlookup m found hfound, hcommit⟩
      revExists := fun rev hrev r hr => hexists _ (h.revExists rev hrev r hr)
      headExists := fun head r hhead hr => hexists _ (h.headExists head r hhead hr)
      selectionCurrent := fun rev hrev => hcurrent rev (h.selectionCurrent rev hrev)
      revCurrent := fun rev hrev => hcurrent rev (h.revCurrent rev hrev)
      colCurrent := fun col hcol => hcurrent col.rev (h.colCurrent col hcol)
      colLoaded := h.colLoaded }

theorem revCreate_end_ends (h : Linked env app) {x : Program Repository Exn Ref}
    (hx : Grows env.names app.repo x) (template : Rev) (commit : Commit) {action : Action}
    (hcol : app.columnRef action = none) :
    Program.Ends (revCreateEnd env inputs x template commit) app
      (fun _ app' => Advanced env app app' action)
      fun e app' => e ≠ .abort → ¬inputs.fault.IsLate → Linked env app' := by
  unfold revCreateEnd
  refine .bind (.zoom (Program.Ends.mono hx ?_ fun e repo hgrown _ _ => h.of_grown hgrown))
  rintro ref repo₁ ⟨hgrown, hcurrent⟩
  have h₁ := h.of_grown hgrown
  refine .bind (.zoom ((reflogRememberRef_ends ref h₁.headResolves).mono ?_
    fun _ _ hfailed _ hlate => absurd hfailed.2 hlate))
  rintro - _ hrepo₁
  rw [hrepo₁]
  refine .bind (.read ?_)
  split
  · exact .fail fun habort => absurd rfl habort
  · next i _ =>
      have hreloadable : Reloadable env
          { app with
            repo := repo₁
            revs := app.revs.insertIdx (i + 1) ⟨.ofRef ref, 0, .allowed⟩
            selection := ⟨some ⟨.ofRef ref, 0, .allowed⟩, {commit}⟩ } :=
        { h₁.toReady.congr rfl rfl rfl with
          loaded := h₁.loaded
          revExists := by
            intro rev hrev r hr
            rcases List.eq_or_mem_of_mem_insertIdx hrev with rfl | hrev
            · cases hr
              show (repo₁.lookup ref.fullName).isSome = true
              rw [hcurrent]
              rfl
            · exact h₁.revExists rev hrev r hr
          headExists := h₁.headExists
          selectionCurrent := by
            rintro _ ⟨⟩ _ ⟨⟩
            exact ⟨hcurrent, rfl⟩ }
      refine .bind (.update ((reload_ends hreloadable).mono ?_
        fun _ _ hfailed _ hlate => absurd hfailed.1 hlate))
      rintro - app' ⟨hreloaded, hlinked⟩
      have hrepo : app'.repo = repo₁ := hreloaded.repo
      have hloads : Loads env repo₁ app.repoState app'.repoState := hreloaded.loads
      refine ⟨hlinked, advances_of_others h hcol fun m _ => ?_⟩
      rw [hrepo]
      cases hm : app.repo.lookup m with
      | some found =>
          have hfound := hgrown.lookup hm
          exact Or.inl ⟨hfound, (hloads.kept' m).congr (hm.trans hfound.symm) rfl⟩
      | none =>
          refine Or.inr ⟨rfl, (hloads.kept' m).congr rfl ?_⟩
          exact (repoState_of_free h hm).symm

theorem revCreate_advances (h : Linked env app) (branch : Bool) (template : Rev) (commit : Commit)
    {action : Action} (hcol : app.columnRef action = none) :
    Program.Ends (revCreate env inputs branch template commit) app
      (fun _ app' => Advanced env app app' action)
      fun e app' => e ≠ .abort → ¬inputs.fault.IsLate → Linked env app' := by
  have hhead : ∀ repo' : Repository, repo'.head = app.repo.head →
      repo'.head ≠ .attached headFile := by
    intro repo' hsame
    rw [hsame]
    exact h.headName
  refine revCreate_ends (fun habort => absurd rfl habort) (fun ref => ?_) fun x hx => ?_
  · refine .zoom ((branchNameLocal_ends ref).mono ?_ ?_)
    · rintro - _ rfl
      rfl
    · rintro - _ rfl - -
      exact h
  · cases hx with
    | branch l =>
        exact revCreate_end_ends h
          (createFirst_grows l fun n _ _ => branchCreate_grows n commit) template commit hcol
    | copy name =>
        exact revCreate_end_ends h (createFirst_grows _ fun n repo' hsame =>
          refCopy_grows (hhead repo' hsame) _ n _) template commit hcol

end Create

/-! ### A ref is deleted -/

/-- What is left once `HEAD` has left a ref and the ref is deleted. -/
theorem deleted_reloadable (h : Linked env app) {ref : Ref} (hne : ref.fullName ≠ headFile)
    {app₂ : App κ ω}
    (hrests : Rests
      { app with
        revs := app.revs.filter fun rev => !Ref.same rev.ref (some ref)
        repoState := State.refRemove app.repoState ref.fullName } app₂)
    (hready : Ready env app₂) (hdetached : app₂.repo.head ≠ .attached ref.fullName) :
    Reloadable env
      { app₂ with
        repo := app₂.repo.remove ref.fullName
        head := if Ref.same (app.head.bind GitRev.ref) (some ref) then none else app₂.head
        selection := selectionDeleted ref app₂.selection } := by
  have hlookup : ∀ m, m ≠ ref.fullName →
      (app₂.repo.remove ref.fullName).lookup m = app.repo.lookup m :=
    fun m hm => hrests.lookup_remove hdetached hm
  have hexists : ∀ r : Ref, r.fullName ≠ ref.fullName → (app.repo.lookup r.fullName).isSome →
      ((app₂.repo.remove ref.fullName).lookup r.fullName).isSome := by
    intro r hr hsome
    rw [hlookup _ hr]
    exact hsome
  exact
    { named := named_removed h.named hrests.refs
      headName := hready.headName
      headResolves := by
        have hresolves := h.headResolves
        unfold Repository.headCommit at hresolves ⊢
        rw [Option.isSome_map] at hresolves ⊢
        rw [hlookup headFile (Ne.symm hne)]
        exact hresolves
      headAttached := by
        intro m hm hmutable
        obtain ⟨hflag, hname⟩ := hready.headAttached m hm hmutable
        refine ⟨hflag, ?_⟩
        rw [hrests.head] at hname ⊢
        -- `HEAD` is attached to another ref, so that is the one of `_head`
        have hother : ¬Ref.same (app.head.bind GitRev.ref) (some ref) = true := by
          intro hsame
          have heq : (app.head.bind GitRev.ref).map Ref.fullName = some ref.fullName :=
            of_decide_eq_true hsame
          rw [heq] at hname
          cases hname
          exact hdetached hm
        rw [if_neg hother]
        exact hname
      loaded := by
        intro m lref hm
        have hm : State.refRemove app.repoState ref.fullName m = some lref :=
          (congrFun hrests.repoState m).symm.trans hm
        have hmk : m ≠ ref.fullName := by
          rintro rfl
          rw [State.refRemove, Function.update_self] at hm
          cases hm
        rw [State.refRemove, Function.update_of_ne hmk] at hm
        obtain ⟨hname, found, hfound, hcommit⟩ := h.loaded m lref hm
        exact ⟨hname, found, (hlookup m hmk).trans hfound, hcommit⟩
      revExists := by
        intro rev hrev r hr
        rw [show app₂.revs = _ from hrests.revs] at hrev
        obtain ⟨hmem, hother⟩ := List.mem_filter.mp hrev
        refine hexists r (fun heq => ?_) (h.revExists rev hmem r hr)
        rw [hr] at hother
        simp [Ref.same, heq] at hother
      headExists := by
        intro head r hhead hr
        change (if Ref.same (app.head.bind GitRev.ref) (some ref) then none else app₂.head) =
          some head at hhead
        split at hhead
        · cases hhead
        · next hother =>
            rw [hrests.head] at hhead
            refine hexists r (fun heq => hother (decide_eq_true ?_)) (h.headExists head r hhead hr)
            rw [show app.head = some head from hhead, Option.bind_some, hr]
            exact congrArg some heq
      selectionCurrent := by
        intro rev hrev r hr
        change (selectionDeleted ref app₂.selection).rev = some rev at hrev
        rw [hrests.selection] at hrev
        obtain ⟨hrev, hother⟩ := rev_of_selectionDeleted hrev
        obtain ⟨hcurrent, hcommit⟩ := h.selectionCurrent rev hrev r hr
        exact ⟨(hlookup _ (hother r hr)).trans hcurrent, hcommit⟩ }

theorem refRemove_ends [DecidableEq κ] (h : Linked env app) {ref : Ref}
    (hcurrent : app.repo.Current ref) (hmutable : ref.isMutable = true) {action : Action}
    (hcol : app.columnRef action = none) :
    Program.Ends (refRemove env inputs ref) app (fun _ app' => Advanced env app app' action)
      fun _ _ => inputs.fault.IsLate := by
  have hne := Ref.ne_headFile_of_isMutable hmutable
  unfold refRemove gitRefDelete
  refine .bind (.bind (.update ?_))
  let app₁ : App κ ω :=
    { app with
      revs := app.revs.filter fun rev => !Ref.same rev.ref (some ref)
      repoState := State.refRemove app.repoState ref.fullName }
  have hready₁ : Ready env app₁ := h.toReady.congr rfl rfl rfl
  refine .bind ((gitDetachHeadIfEqual_ends hready₁ ref).mono ?_ fun _ _ hlate => hlate)
  rintro wasHead app₂ ⟨rfl, hrests, hdetached⟩
  have hdetached₂ := hdetached (mutableName_of_isMutable hmutable)
  have hrefs : app₂.repo.refs ref.fullName = some ref.target := by
    rw [hrests.refs]
    exact hcurrent.refs hne
  refine headDeleted_ends (.bind (.update (.zoom ((refDelete_ends hmutable hrefs).mono ?_
    fun _ _ hlate => hlate.2))))
  rintro - _ rfl
  refine (reload_ends (deleted_reloadable h hne hrests (hready₁.of_rests hrests)
    hdetached₂)).mono ?_ fun _ _ hfailed => hfailed.1
  rintro - app' ⟨hreloaded, hlinked⟩
  refine ⟨hlinked, advances_of_others h hcol fun m hm => Or.inl ?_⟩
  have hrepo : app'.repo = app₂.repo.remove ref.fullName := hreloaded.repo
  have hmk : m ≠ ref.fullName := by
    rintro rfl
    rw [hrepo, Repository.lookup_remove_self hne] at hm
    cases hm
  have hlookup : (app₂.repo.remove ref.fullName).lookup m = app.repo.lookup m :=
    hrests.lookup_remove hdetached₂ hmk
  rw [hrepo]
  refine ⟨hlookup, (hreloaded.loads.kept' m).congr hlookup.symm ?_⟩
  exact ((congrFun hrests.repoState m).trans (Function.update_of_ne hmk _ _)).symm

/-! ## Every action -/

theorem Turned.advanced [DecidableEq κ] {action : Action} {k : Bytes}
    (h : Turned env app app' action k) : Advanced env app app' action :=
  ⟨h.linked, h.recorded⟩

/-- An action that has nothing to do: the ref of its column is seen again as it is. -/
theorem Advanced.of_still (h : Linked env app) {action : Action}
    (hturn : ∀ t now, action.turn t now = t.observe now) : Advanced env app app action where
  linked := h
  recorded := by
    ext1 m
    cases href : app.repo.lookup m with
    | none => simp [App.recorded, advance, href]
    | some ref =>
        obtain ⟨t, ht, hpresent⟩ := present_recorded h.loaded href
        have horigin : app.origin action m = some m := by
          unfold origin
          rw [href]
          rfl
        unfold advance
        rw [ht, href, horigin, Option.map_some, Option.bind_some, ht]
        dsimp only
        rw [hturn, ite_self, ← hpresent, t.observe_present]

/-- Another selection, of a rev that is current. -/
theorem Linked.of_selection (h : Linked env app) {selection : Ui.Selection}
    (hselection : ∀ rev, selection.rev = some rev → RevCurrent app.repo rev) :
    Linked env { app with selection := selection } :=
  { h with
    named := h.named
    headName := h.headName
    headResolves := h.headResolves
    headAttached := h.headAttached
    selectionCurrent := hselection }

/-- The ref that an action gives the name to. -/
def renamedOf (app : App κ ω) : Action → Option (Ref × Bytes)
  | .rename i name => (app.colRef i).map fun ref => (ref, name)
  | _ => none

/-- The action restores a snapshot. -/
def Action.isRestore : Action → Bool
  | .restore _ _ => true
  | _ => false

/-- What an action needs so that the histories follow it: the name of a tag that it writes is
found as this tag, a ref that a commit operation rewrites has its history loaded, and a state
that is restored is one that the ref can have and, for a snapshot, another one. -/
structure Followable (env : Env κ ω) [DecidableEq κ] (app : App κ ω) (l : Action × Inputs κ) :
    Prop where
  rewritten : ∀ op, app.opOf l.1 = some op → ∀ ref ∈ op.targets,
    CopyClear env.names app.repo ref ref.name ∧ (app.repoState ref.fullName).isSome
  renamed : ∀ x, app.renamedOf l.1 = some x → RenameClear env.names app.repo x.1 x.2
  restored : ∀ x, app.restoredOf env l.2 l.1 = some x → Restorable env app x.1 x.2
  differs : ∀ x, app.restoredOf env l.2 l.1 = some x → l.1.isRestore = true →
    SnapshotDiffers env (app.loaded env l.2 x.1).history.current.refState x.2

instance (env : Env κ ω) (app : App κ ω) (ref : Ref) (refState : State.RefState κ) :
    Decidable (Restorable env app ref refState) :=
  decidable_of_iff
    ((∀ commit, env.ids.commit refState.head = some commit → commit ≠ ref.commit →
        CopyClear env.names app.repo ref ref.name) ∧
      (∀ commit, env.ids.commit refState.head = some commit → ref.name ≠ refState.name →
        RenameClear env.names app.repo ref refState.name) ∧
      ∀ commit, env.ids.commit refState.head = some commit → ref.name ≠ refState.name →
        ∀ k, env.names.normalize (ref.copyDir ++ refState.name) = some k →
          k = ref.copyDir ++ refState.name)
    ⟨fun h => ⟨h.1, h.2.1, h.2.2⟩, fun h => ⟨h.replaced, h.renamed, h.normal⟩⟩

instance [DecidableEq κ] (env : Env κ ω) (current snapshot : State.RefState κ) :
    Decidable (SnapshotDiffers env current snapshot) :=
  inferInstanceAs (Decidable (_ → _ → _))

instance [DecidableEq κ] (env : Env κ ω) (app : App κ ω) (l : Action × Inputs κ) :
    Decidable (Followable env app l) :=
  decidable_of_iff
    ((∀ op, app.opOf l.1 = some op → ∀ ref ∈ op.targets,
        CopyClear env.names app.repo ref ref.name ∧ (app.repoState ref.fullName).isSome) ∧
      (∀ x, app.renamedOf l.1 = some x → RenameClear env.names app.repo x.1 x.2) ∧
      (∀ x, app.restoredOf env l.2 l.1 = some x → Restorable env app x.1 x.2) ∧
      ∀ x, app.restoredOf env l.2 l.1 = some x → l.1.isRestore = true →
        SnapshotDiffers env (app.loaded env l.2 x.1).history.current.refState x.2)
    ⟨fun h => ⟨h.1, h.2.1, h.2.2.1, h.2.2.2⟩,
      fun h => ⟨h.rewritten, h.renamed, h.restored, h.differs⟩⟩

/-- The stored selection that an action restores. -/
def selectionOf (env : Env κ ω) (inputs : Inputs κ) [DecidableEq κ] (app : App κ ω) :
    Action → Option (Finset κ)
  | .undo i => (app.colRef i).map fun ref =>
      (app.loaded env inputs ref).history.current.selectionPrev
  | .redo i => do
      let ref ← app.colRef i
      let x ← (app.loaded env inputs ref).history.nextPeek
      pure x.selection
  | _ => none

/-- What an action needs so that it has done nothing yet when it throws: no late call fails,
nothing refuses to replace the second ref of an operation, the name of a state is free if its
commit is set first, and the selection of a state that changes the ref is found. -/
structure Undisturbed (env : Env κ ω) [DecidableEq κ] (app : App κ ω) (l : Action × Inputs κ) :
    Prop where
  early : ¬l.2.fault.IsLate
  answers : ∀ op, app.opOf l.1 = some op → ∀ ref ∈ op.targets.tail, Answers l.2 ref
  free : ∀ x, app.restoredOf env l.2 l.1 = some x → RestoreFree env l.2 app x.1 x.2
  found : ∀ x, app.restoredOf env l.2 l.1 = some x →
    ∀ selection, app.selectionOf env l.2 l.1 = some selection →
      ∀ commit, env.ids.commit x.2.head = some commit →
        commit ≠ x.1.commit ∨ x.1.name ≠ x.2.name → SelectionFound env l.2 selection

instance (inputs : Inputs κ) (ref : Ref) : Decidable (Answers inputs ref) :=
  inferInstanceAs (Decidable (_ ∧ ¬(_ ∨ _ ∨ _)))

instance (env : Env κ ω) (inputs : Inputs κ) (app : App κ ω) (ref : Ref)
    (refState : State.RefState κ) : Decidable (RestoreFree env inputs app ref refState) :=
  inferInstanceAs
    (Decidable (∀ commit, env.ids.commit refState.head = some commit → _))

instance (env : Env κ ω) (inputs : Inputs κ) (selection : Finset κ) :
    Decidable (SelectionFound env inputs selection) :=
  inferInstanceAs (Decidable (∀ id ∈ selection, _))

instance [DecidableEq κ] (env : Env κ ω) (app : App κ ω) (l : Action × Inputs κ) :
    Decidable (Undisturbed env app l) :=
  decidable_of_iff
    (¬l.2.fault.IsLate ∧
      (∀ op, app.opOf l.1 = some op → ∀ ref ∈ op.targets.tail, Answers l.2 ref) ∧
      (∀ x, app.restoredOf env l.2 l.1 = some x → RestoreFree env l.2 app x.1 x.2) ∧
      ∀ x, app.restoredOf env l.2 l.1 = some x →
        ∀ selection, app.selectionOf env l.2 l.1 = some selection →
          ∀ commit, env.ids.commit x.2.head = some commit →
            commit ≠ x.1.commit ∨ x.1.name ≠ x.2.name → SelectionFound env l.2 selection)
    ⟨fun h => ⟨h.1, h.2.1, h.2.2.1, h.2.2.2⟩, fun h => ⟨h.early, h.answers, h.free, h.found⟩⟩

section Perform

variable [DecidableEq κ]

omit [DecidableEq κ] in
theorem colRev_current (h : Linked env app) {i : Nat} {rev : Rev} (hrev : app.colRev i = some rev) :
    RevCurrent app.repo rev := by
  obtain ⟨col, hget, rfl⟩ := Option.map_eq_some_iff.mp hrev
  exact h.colCurrent col (List.mem_of_getElem? hget)

/-- What an operation on commits leaves behind. -/
theorem gitOpExec_advances (h : Linked env app) {action : Action} {op : Modify.Op}
    (hop : app.opOf action = some op) (hcol : app.columnRef action = none)
    (hsrc : op.src.rev = app.selection.rev)
    (hdst : ∀ rev, op.dst.rev = some rev → RevCurrent app.repo rev)
    (hmutable : ∀ ref ∈ op.targets, ref.isMutable = true)
    (hfollow : Followable env app (action, inputs)) :
    Program.Ends (gitOpExec env inputs op) app (fun _ app' => Advanced env app app' action)
      fun e app' => e ≠ .abort → Undisturbed env app (action, inputs) → Linked env app' := by
  refine (gitOpExec_ends h hcol (fun rev hrev => h.selectionCurrent rev (hsrc ▸ hrev)) hdst
    fun ref href => ?_).mono (fun _ _ hok => hok) ?_
  · obtain ⟨hclear, hloaded⟩ := hfollow.rewritten op hop ref href
    exact ⟨hmutable ref href, hclear, hloaded⟩
  · intro e app' hfailed habort hundisturbed
    exact hfailed habort hundisturbed.early (hundisturbed.answers op hop)

/-- What undo leaves behind, or redo. -/
theorem undoRedo_advances (h : Linked env app) (undo : Bool) {i : Nat}
    (hoffers : app.canUndoRedo i undo = true)
    (hfollow : Followable env app (if undo then .undo i else .redo i, inputs)) :
    Program.Ends (withRev (app.colRev i) fun rev => undoRedo env inputs rev undo) app
      (fun _ app' => Advanced env app app' (if undo then .undo i else .redo i))
      fun e app' => e ≠ .abort →
        Undisturbed env app (if undo then .undo i else .redo i, inputs) → Rests app app' := by
  obtain ⟨ref, hcol⟩ := colRef_of_canUndoRedo hoffers
  obtain ⟨rev, lref, hrev, hrevRef, -, -, hlref⟩ := colRef_eq_some h hcol
  have hloaded : app.loaded env inputs ref = lref := by rw [loaded, hlref, Option.getD_some]
  obtain ⟨x, hpeek⟩ : ∃ x, turnPeek undo lref.history = some x := by
    simpa [turnPeek, canUndoRedo, hcol, hlref, Option.isSome_iff_exists] using hoffers
  have hrestored : app.restoredOf env inputs (if undo then .undo i else .redo i) =
      some (ref, x.refState) := by
    cases undo with
    | true => exact restoredOf_undo hcol (by rw [hloaded]; exact hpeek)
    | false => exact restoredOf_redo hcol (by rw [hloaded]; exact hpeek)
  have hselection : app.selectionOf env inputs (if undo then .undo i else .redo i) =
      some (if undo then lref.history.current.selectionPrev else x.selection) := by
    cases undo with
    | true => simp [selectionOf, hcol, hloaded]
    | false =>
        have hnext : lref.history.nextPeek = some x := hpeek
        simp [selectionOf, hcol, hloaded, hnext]
  simp only [hrev, withRev]
  refine (undoRedo_ends h hcol hrevRef hlref hpeek (hfollow.restored _ hrestored)).mono
    (fun _ _ hturned => hturned.advanced) ?_
  intro e app' hfailed habort hundisturbed
  exact hfailed habort hundisturbed.early (hundisturbed.free _ hrestored)
    (hundisturbed.found _ hrestored _ hselection)

/-- What the choice of a snapshot leaves behind. -/
theorem snapshotRestore_advances (h : Linked env app) {i : Nat} {choice : Option Nat}
    (hoffers : app.offers (.restore i choice) = true)
    (hfollow : Followable env app (.restore i choice, inputs)) :
    Program.Ends (withRev (app.colRef i) fun ref => snapshotRestore env inputs ref choice) app
      (fun _ app' => Advanced env app app' (.restore i choice))
      fun e app' => e ≠ .abort → Undisturbed env app (.restore i choice, inputs) →
        Rests app app' := by
  obtain ⟨ref, hcol⟩ := Option.isSome_iff_exists.mp hoffers
  obtain ⟨rev, lref, -, -, -, -, hlref⟩ := colRef_eq_some h hcol
  simp only [hcol, withRev]
  have hloaded : app.loaded env inputs ref = lref := by rw [loaded, hlref, Option.getD_some]
  have hrestored : ∀ snapshot, snapshotChosen lref choice = some snapshot →
      snapshot.refState ≠ lref.history.current.refState →
      app.restoredOf env inputs (.restore i choice) = some (ref, snapshot.refState) :=
    fun snapshot hchosen hdiffers =>
      restoredOf_restore hcol (hloaded ▸ hchosen) (hloaded ▸ hdiffers)
  refine (snapshotRestore_ends h hcol hlref ?_).mono ?_ ?_
  · intro snapshot hchosen hdiffers
    have hother := hfollow.differs _ (hrestored snapshot hchosen hdiffers) rfl
    rw [hloaded] at hother
    exact ⟨hfollow.restored _ (hrestored snapshot hchosen hdiffers), hother⟩
  · rintro - app' (rfl | hturned)
    · exact .of_still h fun _ _ => rfl
    · exact hturned.advanced
  · intro e app' hfailed habort hundisturbed
    exact hfailed habort hundisturbed.early fun snapshot hchosen hdiffers =>
      hundisturbed.free _ (hrestored snapshot hchosen hdiffers)

/-- What an action leaves behind: the histories follow it, or it throws and everything is still
linked.  An action on the ref of a column has done nothing then. -/
theorem perform_ends (h : Linked env app) {action : Action} (hoffers : app.offers action = true)
    (hfollow : Followable env app (action, inputs)) :
    Program.Ends (perform env inputs action) app (fun _ app' => Advanced env app app' action)
      fun e app' => e ≠ .abort → Undisturbed env app (action, inputs) →
        Linked env app' ∧ (action.column.isSome → Rests app app') := by
  -- an operation on commits, which is not about the ref of a column
  have hexec {op : Modify.Op} (hcolumn : action.column = none)
      (hx : Program.Ends (gitOpExec env inputs op) app (fun _ app' => Advanced env app app' action)
        fun e app' => e ≠ .abort → Undisturbed env app (action, inputs) → Linked env app') :
      Program.Ends (gitOpExec env inputs op) app (fun _ app' => Advanced env app app' action)
        fun e app' => e ≠ .abort → Undisturbed env app (action, inputs) →
          Linked env app' ∧ (action.column.isSome → Rests app app') :=
    hx.mono (fun _ _ hok => hok) fun e app' hfailed habort hundisturbed =>
      ⟨hfailed habort hundisturbed, fun hsome => by
        rw [hcolumn] at hsome
        cases hsome⟩
  -- an action on the ref of a column
  have hrests {x : Program (App κ ω) Exn Unit}
      (hx : Program.Ends x app (fun _ app' => Advanced env app app' action)
        fun e app' => e ≠ .abort → Undisturbed env app (action, inputs) → Rests app app') :
      Program.Ends x app (fun _ app' => Advanced env app app' action)
        fun e app' => e ≠ .abort → Undisturbed env app (action, inputs) →
          Linked env app' ∧ (action.column.isSome → Rests app app') :=
    hx.mono (fun _ _ hok => hok) fun e app' hfailed habort hundisturbed =>
      ⟨h.of_rests (hfailed habort hundisturbed), fun _ => hfailed habort hundisturbed⟩
  have hselectionOp : ∀ type, app.selectionIsMutable = true →
      ∀ ref ∈ (app.selectionOp type).targets, ref.isMutable = true := by
    intro type hmutable ref href
    obtain ⟨src, hsrc, hsrcRef⟩ := targets_selectionOp href
    exact isMutable_of_rev (rev_of_selectionIsMutable hmutable hsrc) hsrcRef
  have hnowhere : ∀ rev : Rev, none = some rev → RevCurrent app.repo rev :=
    fun _ hno => by cases hno
  unfold perform
  refine .bind (.read ?_)
  cases action with
  | resize size =>
      refine .bind (.update ((reload_ends ?_).mono ?_
        fun _ _ hfailed _ hundisturbed => absurd hfailed.1 hundisturbed.early))
      · exact { h.toReloadable with
          named := h.named
          headName := h.headName
          headResolves := h.headResolves
          headAttached := h.headAttached }
      · rintro - app' ⟨hreloaded, hlinked⟩
        exact .of_loads h rfl hlinked hreloaded.repo hreloaded.loads
  | select i commits shift =>
      refine .update (.of_loads h rfl (h.of_selection ?_) rfl .refl)
      intro rev hrev
      unfold selectionSelected at hrev
      dsimp only at hrev
      split at hrev
      · exact h.selectionCurrent rev hrev
      · exact colRev_current h hrev
  | deselect =>
      exact .update (.of_loads h rfl (h.of_selection fun _ hno => by cases hno) rfl .refl)
  | drop i position copy =>
      refine hexec rfl (gitOpExec_advances h rfl rfl rfl (fun rev => colRev_current h)
        (fun ref href => ?_) hfollow)
      rcases targets_drop hoffers rfl href with ⟨hmutable, src, hsrc, hsrcRef⟩ | hcol
      · exact isMutable_of_rev (rev_of_selectionIsMutable hmutable hsrc) hsrcRef
      · obtain ⟨-, -, -, -, hmutable, -⟩ := colRef_eq_some h hcol
        exact hmutable
  | deleteCommits =>
      exact hexec rfl (gitOpExec_advances h rfl rfl rfl hnowhere
        (hselectionOp .delete (Bool.and_eq_true_iff.mp hoffers).2) hfollow)
  | combine =>
      simp only [offers, Bool.and_eq_true] at hoffers
      exact hexec rfl (gitOpExec_advances h rfl rfl rfl hnowhere
        (hselectionOp .combine hoffers.1.1) hfollow)
  | edit =>
      exact hexec rfl (gitOpExec_advances h rfl rfl rfl hnowhere
        (hselectionOp .edit (Bool.and_eq_true_iff.mp hoffers).1) hfollow)
  | undo i => exact hrests (undoRedo_advances h true hoffers hfollow)
  | redo i => exact hrests (undoRedo_advances h false hoffers hfollow)
  | restore i choice => exact hrests (snapshotRestore_advances h hoffers hfollow)
  | rename i name =>
      obtain ⟨ref, hcol⟩ := colRef_of_rename hoffers
      obtain ⟨rev, lref, hrev, hrevRef, -, -, hlref⟩ := colRef_eq_some h hcol
      simp only [hcol, withRev]
      have hrenamed : app.renamedOf (.rename i name) = some (ref, name) := by
        rw [renamedOf, hcol, Option.map_some]
      exact hrests ((refRename_ends h hcol hlref (hfollow.renamed _ hrenamed)).mono
        (fun _ _ hturned => hturned.advanced)
        fun _ _ hfailed habort hundisturbed => hfailed habort hundisturbed.early)
  | remove i =>
      obtain ⟨ref, hcol⟩ := Option.isSome_iff_exists.mp hoffers
      obtain ⟨-, -, -, -, hmutable, hcurrent, -⟩ := colRef_eq_some h hcol
      simp only [hcol, withRev]
      exact (refRemove_ends h hcurrent hmutable rfl).mono (fun _ _ hok => hok)
        fun _ _ hlate _ hundisturbed => absurd hlate hundisturbed.early
  | duplicate i =>
      obtain ⟨rev, hrev⟩ := Option.isSome_iff_exists.mp hoffers
      simp only [hrev, withRev]
      refine (revCreate_advances h false rev rev.commit rfl).mono (fun _ _ hok => hok) ?_
      exact fun _ _ hfailed habort hundisturbed =>
        ⟨hfailed habort hundisturbed.early, fun hno => by cases hno⟩
  | branch col =>
      dsimp only
      unfold withRev
      split
      · exact .fail fun habort => absurd rfl habort
      · split
        · exact .fail fun habort => absurd rfl habort
        · refine (revCreate_advances h true _ _ rfl).mono (fun _ _ hok => hok) ?_
          exact fun _ _ hfailed habort hundisturbed =>
            ⟨hfailed habort hundisturbed.early, fun hno => by cases hno⟩

theorem succeed_advances (h : Linked env app) {l : Action × Inputs κ}
    (hfollow : Followable env app l) (hstep : succeed env app l = some app') :
    Advanced env app app' l.1 := by
  obtain ⟨hoffers, hrun⟩ := succeed_eq_some.mp hstep
  exact (perform_ends h hoffers hfollow).of_ok hrun

end Perform

end Methods

end App
end Debase
