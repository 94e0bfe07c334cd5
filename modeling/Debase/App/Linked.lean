import Debase.App.State
import Debase.Git.RefCalls

/-!
# Histories linked to refs

`Linked` is what holds between two actions: the history of every loaded ref ends in
the ref's present name and head, and every rev the session shows or has selected
is a current handle.  `Reloadable` is the part of it that an operation restores
before it reloads.

`_gitDetachHeadIfEqual` and `_gitRefReplace` have one lemma each.  An exception is
described only when it is not `abort` and no late call failed.
-/

namespace Debase

open Git Library

namespace App

variable {κ ω : Type}

/-- A name in the directories of local branches and of tags. -/
def MutableName (k : Bytes) : Prop := Ref.headsDir <+: k ∨ Ref.tagsDir <+: k

theorem mutableName_of_isMutable {ref : Ref} (h : ref.isMutable = true) :
    MutableName ref.fullName := by
  rcases Bool.or_eq_true_iff.mp h with hbranch | htag
  · exact Or.inl (Ref.isPrefix_of_isLocalBranch hbranch)
  · exact Or.inr (Ref.isPrefix_of_isTag htag)

/-- `HEAD` of a repository is as before, or detached. -/
def HeadRests (app app' : App κ ω) : Prop :=
  (app'.repo.head = app.repo.head ∧ app'.headReattach = app.headReattach) ∨
    ∃ c, app'.repo.head = .detached c

/-- Only the outside changed, and `HEAD`, which may have been detached from its
branch. -/
structure Rests (app app' : App κ ω) : Prop where
  refs : app'.repo.refs = app.repo.refs
  lookup : app'.repo.lookup = app.repo.lookup
  headRests : HeadRests app app'
  repoState : app'.repoState = app.repoState
  revs : app'.revs = app.revs
  columns : app'.columns = app.columns
  size : app'.size = app.size
  head : app'.head = app.head
  selection : app'.selection = app.selection

theorem HeadRests.refl (app : App κ ω) : HeadRests app app := Or.inl ⟨rfl, rfl⟩

theorem HeadRests.trans {app₁ app₂ app₃ : App κ ω} (h : HeadRests app₁ app₂)
    (h' : HeadRests app₂ app₃) : HeadRests app₁ app₃ := by
  rcases h' with ⟨hhead, hflag⟩ | hdetached
  · unfold HeadRests
    rw [hhead, hflag]
    exact h
  · exact Or.inr hdetached

instance : Std.Refl (Rests (κ := κ) (ω := ω)) :=
  ⟨fun app => ⟨rfl, rfl, .refl app, rfl, rfl, rfl, rfl, rfl, rfl⟩⟩

instance : IsTrans (App κ ω) Rests where
  trans _ _ _ h h' :=
    ⟨h'.refs.trans h.refs, h'.lookup.trans h.lookup, h.headRests.trans h'.headRests,
      h'.repoState.trans h.repoState, h'.revs.trans h.revs, h'.columns.trans h.columns,
      h'.size.trans h.size, h'.head.trans h.head, h'.selection.trans h.selection⟩

/-- The repository and `_head` are as an operation needs them: refs have normalized
names, `HEAD` resolves, and as long as it is attached `_head` has its ref. -/
structure Ready (env : Env κ ω) (app : App κ ω) : Prop where
  named : ∀ k t, app.repo.refs k = some t → env.names.normalize k = some k
  headName : app.repo.head ≠ .attached headFile
  headResolves : app.repo.headCommit.isSome
  headAttached : ∀ k, app.repo.head = .attached k → MutableName k →
    app.headReattach = false ∧ (app.head.bind GitRev.ref).map Ref.fullName = some k

/-- The rev is a current handle with its commit. -/
def RevCurrent (repo : Repository) (rev : Rev) : Prop :=
  ∀ ref, rev.ref = some ref → repo.Current ref ∧ rev.commit = ref.commit

/-- The history of a loaded ref ends in the ref's present state. -/
def HistoryLinked (env : Env κ ω) (repo : Repository) (k : Bytes) (lref : State.LoadedRef κ) :
    Prop :=
  lref.history.current.refState.name = Ref.shorthand k ∧
    ∃ ref, repo.lookup k = some ref ∧
      env.ids.commit lref.history.current.refState.head = some ref.commit

/-- What `_reload` needs to make everything current again. -/
structure Reloadable (env : Env κ ω) (app : App κ ω) : Prop extends Ready env app where
  loaded : ∀ k lref, app.repoState k = some lref → HistoryLinked env app.repo k lref
  revExists : ∀ rev ∈ app.revs, ∀ ref, rev.ref = some ref →
    (app.repo.lookup ref.fullName).isSome
  headExists : ∀ head ref, app.head = some head → head.ref = some ref →
    (app.repo.lookup ref.fullName).isSome
  selectionCurrent : ∀ rev, app.selection.rev = some rev → RevCurrent app.repo rev

/-- What holds between two actions. -/
structure Linked (env : Env κ ω) (app : App κ ω) : Prop extends Reloadable env app where
  revCurrent : ∀ rev ∈ app.revs, RevCurrent app.repo rev
  colCurrent : ∀ col ∈ app.columns, RevCurrent app.repo col.rev
  colLoaded : ∀ col ∈ app.columns, ∀ ref, col.rev.ref = some ref →
    (app.repoState ref.fullName).isSome

section Lemmas

variable {env : Env κ ω} {inputs : Inputs κ} {app app' : App κ ω}

theorem lookup_headFile_of_ready (h : Ready env app) :
    ∃ ref, app.repo.lookup headFile = some ref := by
  have := h.headResolves
  unfold Repository.headCommit at this
  rw [Option.isSome_map] at this
  exact Option.isSome_iff_exists.mp this

/-- `HEAD` is not attached to a ref that does not exist. -/
theorem Ready.head_ne_attached {k : Bytes} (h : Ready env app) (hfree : app.repo.refs k = none) :
    app.repo.head ≠ .attached k := by
  intro hattached
  obtain ⟨ref, href⟩ := lookup_headFile_of_ready h
  unfold Repository.lookup at href
  rw [if_pos rfl, hattached] at href
  simp [hfree] at href

/-- What is found once `HEAD` has left a ref and the ref is removed. -/
theorem Rests.lookup_remove {app' : App κ ω} {k m : Bytes} (h : Rests app app')
    (hdetached : app'.repo.head ≠ .attached k) (hm : m ≠ k) :
    (app'.repo.remove k).lookup m = app.repo.lookup m := by
  rw [Repository.lookup_remove_of_ne hdetached hm, h.lookup]

/-- Whether a short name finds anything depends on the lookups alone. -/
theorem lookupResolved_eq_none_iff {repo : Repository} {m : Bytes} :
    repo.lookupResolved m = none ↔ repo.lookup m = none := by
  unfold Repository.lookupResolved Repository.lookup
  by_cases hm : m = headFile
  · rw [if_pos hm, if_pos hm]
    cases repo.head with
    | attached b => simp
    | detached c => simp
  · rw [if_neg hm, if_neg hm]

/-- A clear name stays clear as long as nothing new is found under any name. -/
theorem tagNameClear_mono {names : RefNames} {repo repo' : Repository} {name : Bytes}
    (h : TagNameClear names repo name)
    (hlookup : ∀ m, repo.lookup m = none → repo'.lookup m = none) :
    TagNameClear names repo' name := by
  refine ⟨h.1, fun f hf hvalid => ?_⟩
  have hfree := h.2 f hf hvalid
  cases hm : names.normalize f with
  | none => rfl
  | some m =>
      rw [hm, Option.bind_some] at hfree
      rw [Option.bind_some]
      exact lookupResolved_eq_none_iff.mpr (hlookup m (lookupResolved_eq_none_iff.mp hfree))

theorem Ready.of_rests (h : Ready env app) (hrests : Rests app app') : Ready env app' where
  named := by
    rw [hrests.refs]
    exact h.named
  headName := by
    rcases hrests.headRests with ⟨hhead, -⟩ | ⟨c, hhead⟩
    · rw [hhead]
      exact h.headName
    · rw [hhead]
      simp
  headResolves := by
    unfold Repository.headCommit
    rw [hrests.lookup]
    exact h.headResolves
  headAttached := by
    intro k hk hname
    rcases hrests.headRests with ⟨hhead, hflag⟩ | ⟨c, hhead⟩
    · rw [hflag, hrests.head]
      exact h.headAttached k (hhead ▸ hk) hname
    · rw [hhead] at hk
      cases hk

theorem Linked.of_rests (h : Linked env app) (hrests : Rests app app') : Linked env app' := by
  have hcurrent : ∀ rev, RevCurrent app.repo rev → RevCurrent app'.repo rev := by
    intro rev hrev ref href
    unfold Repository.Current
    rw [hrests.lookup]
    exact hrev ref href
  exact
    { h.toReady.of_rests hrests with
      loaded := by
        rw [hrests.repoState]
        intro k lref hlref
        unfold HistoryLinked
        rw [hrests.lookup]
        exact h.loaded k lref hlref
      revExists := by
        rw [hrests.revs, hrests.lookup]
        exact h.revExists
      headExists := by
        rw [hrests.head, hrests.lookup]
        exact h.headExists
      selectionCurrent := by
        rw [hrests.selection]
        exact fun rev hrev => hcurrent rev (h.selectionCurrent rev hrev)
      revCurrent := by
        rw [hrests.revs]
        exact fun rev hrev => hcurrent rev (h.revCurrent rev hrev)
      colCurrent := by
        rw [hrests.columns]
        exact fun col hcol => hcurrent col.rev (h.colCurrent col hcol)
      colLoaded := by
        rw [hrests.columns, hrests.repoState]
        exact h.colLoaded }

end Lemmas

section Methods

variable {env : Env κ ω} {inputs : Inputs κ} {app : App κ ω}

/-! ## Detaching `HEAD` -/

/-- Detaching `HEAD` changes no lookup. -/
theorem lookup_detached {repo : Repository} {commit : Commit}
    (h : repo.headCommit = some commit) :
    ({ repo with head := .detached commit } : Repository).lookup = repo.lookup := by
  funext m
  unfold Repository.headCommit Repository.lookup at h
  unfold Repository.lookup
  by_cases hm : m = headFile
  · rw [if_pos hm, if_pos hm]
    rw [if_pos rfl] at h
    cases hrepo : repo.head with
    | detached c =>
        rw [hrepo] at h
        cases h
        rfl
    | attached b =>
        rw [hrepo] at h
        cases hb : repo.refs b with
        | none => simp [hb] at h
        | some t =>
            have hcommit : t.commit = commit := by simpa [hb] using h
            simp [hb, hcommit]
  · rw [if_neg hm, if_neg hm]

theorem gitDetachHeadIfEqual_ends (h : Ready env app) (ref : Ref) :
    Program.Ends (gitDetachHeadIfEqual inputs ref) app
      (fun wasHead app' => wasHead = Ref.same (app.head.bind GitRev.ref) (some ref) ∧
        Rests app app' ∧ (MutableName ref.fullName → app'.repo.head ≠ .attached ref.fullName))
      (fun _ _ => inputs.fault.IsLate) := by
  obtain ⟨commit, hcommit⟩ := Option.isSome_iff_exists.mp h.headResolves
  unfold gitDetachHeadIfEqual
  refine .bind (.read ?_)
  by_cases hsame : Ref.same (app.head.bind GitRev.ref) (some ref) = true
  · rw [hsame]
    simp only [Bool.not_true, Bool.false_eq_true, if_false]
    by_cases hflag : app.headReattach = true
    · simp only [hflag, Bool.not_true, Bool.false_eq_true, if_false]
      refine .bind (.pure (.pure ⟨rfl, refl_of Rests app, fun hname hhead => ?_⟩))
      have := (h.headAttached _ hhead hname).1
      rw [hflag] at this
      cases this
    · simp only [hflag, Bool.not_false, if_true]
      refine .bind (.update (.bind (.zoom
        ((headDetach_ends hcommit).mono ?_ fun _ _ hlate => hlate.2))))
      rintro - repo' rfl
      refine .pure ⟨rfl, ?_, fun _ => by simp⟩
      exact
        { refs := rfl
          lookup := lookup_detached hcommit
          headRests := Or.inr ⟨commit, rfl⟩
          repoState := rfl
          revs := rfl
          columns := rfl
          size := rfl
          head := rfl
          selection := rfl }
  · have hfalse : Ref.same (app.head.bind GitRev.ref) (some ref) = false := by simpa using hsame
    rw [hfalse]
    simp only [Bool.not_false, if_true]
    refine .pure ⟨rfl, refl_of Rests app, fun hname hhead => hsame ?_⟩
    -- `HEAD` is attached to the ref, so `_head` has it
    have := (h.headAttached _ hhead hname).2
    simpa [Ref.same] using this

/-! ## Replacing a ref -/

/-- One ref was written, and `HEAD` is not attached to it. -/
structure Wrote (app app' : App κ ω) (k : Bytes) (t : Target) : Prop where
  refs : app'.repo.refs = Function.update app.repo.refs k (some t)
  lookupSelf : app'.repo.lookup k = some (t.handle k)
  lookupOther : ∀ m, m ≠ k → app'.repo.lookup m = app.repo.lookup m
  headRests : HeadRests app app'
  headOther : app'.repo.head ≠ .attached k
  repoState : app'.repoState = app.repoState
  revs : app'.revs = app.revs
  columns : app'.columns = app.columns
  size : app'.size = app.size
  head : app'.head = app.head
  selection : app'.selection = app.selection

/-- Writing a ref, after `HEAD` was detached from it. -/
theorem Wrote.of_rests {app₁ : App κ ω} {k : Bytes} {t : Target} (hrests : Rests app app₁)
    (hname : k ≠ headFile) (hhead : app₁.repo.head ≠ .attached k) :
    Wrote app { app₁ with repo := app₁.repo.write k t } k t where
  refs := by
    rw [← hrests.refs]
    rfl
  lookupSelf := Repository.lookup_write_self hname
  lookupOther m hm := by
    rw [← hrests.lookup]
    exact Repository.lookup_write_of_ne hhead hm
  headRests := hrests.headRests
  headOther := hhead
  repoState := hrests.repoState
  revs := hrests.revs
  columns := hrests.columns
  size := hrests.size
  head := hrests.head
  selection := hrests.selection

theorem Ready.congr {app' : App κ ω} (h : Ready env app) (hrepo : app'.repo = app.repo)
    (hflag : app'.headReattach = app.headReattach)
    (hhead : (app'.head.bind GitRev.ref).map Ref.fullName =
      (app.head.bind GitRev.ref).map Ref.fullName) :
    Ready env app' where
  named := by
    rw [hrepo]
    exact h.named
  headName := by
    rw [hrepo]
    exact h.headName
  headResolves := by
    rw [hrepo]
    exact h.headResolves
  headAttached := by
    rw [hrepo, hflag, hhead]
    exact h.headAttached

theorem Ready.of_wrote {app' : App κ ω} {k : Bytes} {t : Target} (h : Ready env app)
    (hwrote : Wrote app app' k t) (hname : env.names.normalize k = some k) (hk : k ≠ headFile) :
    Ready env app' where
  named := by
    intro m u hm
    rw [hwrote.refs] at hm
    by_cases hmk : m = k
    · rw [hmk, hname]
    · rw [Function.update_of_ne hmk] at hm
      exact h.named m u hm
  headName := by
    rcases hwrote.headRests with ⟨hhead, -⟩ | ⟨c, hhead⟩
    · rw [hhead]
      exact h.headName
    · rw [hhead]
      simp
  headResolves := by
    unfold Repository.headCommit
    rw [hwrote.lookupOther headFile (Ne.symm hk)]
    exact h.headResolves
  headAttached := by
    intro m hm hmutable
    rcases hwrote.headRests with ⟨hhead, hflag⟩ | ⟨c, hhead⟩
    · rw [hflag, hwrote.head]
      exact h.headAttached m (hhead ▸ hm) hmutable
    · rw [hhead] at hm
      cases hm

/-- A ref that did not exist is created. -/
theorem Ready.created {k : Bytes} (t : Target) (h : Ready env app)
    (hname : env.names.normalize k = some k) (hk : k ≠ headFile)
    (hfree : app.repo.refs k = none) : Ready env { app with repo := app.repo.write k t } :=
  h.of_wrote (.of_rests (refl_of Rests app) hk (h.head_ne_attached hfree)) hname hk

theorem gitRefReplace_ends (h : Ready env app) {ref : Ref} (hcurrent : app.repo.Current ref)
    (hmutable : ref.isMutable = true) (hclear : CopyClear env.names app.repo ref ref.name)
    (commit : Commit) :
    Program.Ends (gitRefReplace env inputs ref commit) app
      (fun ref' app' => ∃ ann, Wrote app app' ref.fullName ⟨commit, ann⟩ ∧
        ref' = Target.handle ⟨commit, ann⟩ ref.fullName)
      (fun e app' => e ≠ .abort → ¬inputs.fault.IsLate → Rests app app' ∧
        ((ref.isBranch = true → ref.name ≠ headFile) → inputs.fault.AtReplace ref)) := by
  have hne := Ref.ne_headFile_of_isMutable hmutable
  unfold gitRefReplace
  refine .bind ((gitDetachHeadIfEqual_ends h ref).mono ?_ fun _ _ hfault _ hlate =>
    absurd hfault hlate)
  rintro - app₁ ⟨-, hrests, hhead⟩
  have hready := h.of_rests hrests
  have hdetached := hhead (mutableName_of_isMutable hmutable)
  have hname : env.names.normalize ref.fullName = some ref.fullName :=
    h.named _ _ (hcurrent.refs hne)
  have hclear' : CopyClear env.names app₁.repo ref ref.name :=
    fun hbranch => tagNameClear_mono (hclear hbranch) fun m hm => by rw [hrests.lookup, hm]
  refine .zoom ((refReplace_ends hready.headName hmutable hname hclear' commit).mono ?_ ?_)
  · rintro ref' repo' ⟨ann, rfl, rfl⟩
    exact ⟨ann, .of_rests hrests hne hdetached, rfl⟩
  · rintro e repo' hfailed habort hlate
    obtain ⟨rfl, hat⟩ := hfailed habort hlate
    exact ⟨hrests, fun hbranch => hat ⟨hbranch, hdetached⟩⟩

end Methods

end App
end Debase
