import Debase.App.Linked
import Debase.Git.Issued
import Debase.Git.RefSafety

/-!
# When a commit operation aborts

`Modify::Exec` with the callbacks of `_gitOpExec`, for every operation that the user
interface issues.  Whatever the outside does, no assertion fails exactly when the
operation is idle, or its commits have room for their parents and its refs can be
replaced one after the other.
-/

namespace Debase

open Git Library

namespace App

variable {κ ω : Type}

/-! ## Letting go of a ref -/

/-- The application once `HEAD` was detached from a ref, if `_head` has it. -/
def letGo (app : App κ ω) (ref : Ref) : App κ ω :=
  if Ref.same (app.head.bind GitRev.ref) (some ref) && !app.headReattach then
    { app with
      headReattach := true
      repo := app.repo.headCommit.elim app.repo fun c => { app.repo with head := .detached c } }
  else app

/-- Replacing refs one after the other reaches no assertion: each one is safe, as far
as libgit2 does not refuse one before it. -/
def ReplacesSafely (names : RefNames) : App κ ω → List Ref → Prop
  | _, [] => True
  | app, ref :: refs =>
      SafeToReplace names (app.letGo ref).repo ref ∧
        (Refused (app.letGo ref).repo ref ∨ ReplacesSafely names (app.letGo ref) refs)

/-- Two applications with the same names of refs, and the same tracked head. -/
structure SameTracked (app app' : App κ ω) : Prop where
  repo : SameNames app.repo app'.repo
  head : app'.head = app.head
  headReattach : app'.headReattach = app.headReattach

section Names

variable {names : RefNames} {app app' : App κ ω}

theorem sameNames_letGo (app : App κ ω) (ref : Ref) (b : Bytes) :
    ((app.letGo ref).repo.refs b).isSome = (app.repo.refs b).isSome := by
  unfold letGo
  split
  · cases app.repo.headCommit with
    | none => rfl
    | some c => rfl
  · rfl

theorem headResolves_letGo {ref : Ref} (h : app.repo.headCommit.isSome) :
    (app.letGo ref).repo.headCommit.isSome := by
  unfold letGo
  split
  · obtain ⟨c, hc⟩ := Option.isSome_iff_exists.mp h
    simp only [hc, Option.elim_some]
    rfl
  · exact h

theorem SameTracked.letGo (h : SameTracked app app') (ref : Ref) :
    SameTracked (app.letGo ref) (app'.letGo ref) := by
  unfold App.letGo
  rw [h.head, h.headReattach]
  split
  · refine ⟨?_, rfl, rfl⟩
    have hcommit := h.repo.headCommit
    cases hc : app.repo.headCommit with
    | none =>
        rw [hc, Option.isSome_none, Option.isSome_eq_false_iff, Option.isNone_iff_eq_none] at hcommit
        rw [hcommit]
        exact h.repo
    | some c =>
        rw [hc] at hcommit
        obtain ⟨c', hc'⟩ := Option.isSome_iff_exists.mp hcommit
        rw [hc']
        exact ⟨h.repo.refs, fun b => by simp⟩
  · exact h

theorem SameTracked.replacesSafely (h : SameTracked app app') (refs : List Ref) :
    ReplacesSafely names app' refs ↔ ReplacesSafely names app refs := by
  induction refs generalizing app app' with
  | nil => exact Iff.rfl
  | cons ref refs ih =>
      have hgo := h.letGo ref
      unfold ReplacesSafely
      rw [hgo.repo.safeToReplace, hgo.repo.refused, ih hgo]

end Names

/-! ## Replacing refs one after the other -/

section Replace

variable {env : Env κ ω} {inputs : Inputs κ} {app : App κ ω}

theorem gitDetachHeadIfEqual_letGo (hresolves : app.repo.headCommit.isSome) (ref : Ref)
    {A B : Prop} :
    Program.Ends (gitDetachHeadIfEqual inputs ref) app (fun _ app' => app' = app.letGo ref)
      fun e _ => (e = .abort → A) ∧ (inputs.fault = none → e ≠ .abort → B) := by
  obtain ⟨c, hc⟩ := Option.isSome_iff_exists.mp hresolves
  unfold gitDetachHeadIfEqual letGo
  refine .bind (.read ?_)
  by_cases hsame : Ref.same (app.head.bind GitRev.ref) (some ref) = true
  · by_cases hflag : app.headReattach = true
    · simp only [hsame, hflag, Bool.not_true, Bool.false_eq_true, if_false, Bool.and_false]
      exact .pure rfl
    · simp only [hsame, hflag, Bool.not_true, Bool.false_eq_true, if_false, Bool.not_false,
        if_true, Bool.and_self, hc, Option.elim_some]
      refine .bind (.update (.bind (.zoom ?_)))
      unfold headDetach
      refine .bind (call_throws (.bind (.read ?_)))
      simp only [hc]
      exact .update (.pure rfl)
  · simp only [hsame, Bool.not_false, if_true, Bool.false_and, Bool.false_eq_true, if_false]
    exact .pure rfl

/-- What a ref must be for `gitRefReplace`: a mutable one that exists under its
normalized name. -/
def Known (names : RefNames) (repo : Repository) (ref : Ref) : Prop :=
  ref.isMutable = true ∧ names.normalize ref.fullName = some ref.fullName ∧
    (repo.refs ref.fullName).isSome

theorem gitRefReplace_safety (hresolves : app.repo.headCommit.isSome) {ref : Ref}
    (hknown : Known env.names app.repo ref) (commit : Commit) :
    Program.Ends (gitRefReplace env inputs ref commit) app
      (fun _ app' => SafeToReplace env.names (app.letGo ref).repo ref ∧
        ¬Refused (app.letGo ref).repo ref ∧ SameTracked (app.letGo ref) app')
      fun e _ => (e = .abort → ¬SafeToReplace env.names (app.letGo ref).repo ref) ∧
        (inputs.fault = none → e ≠ .abort → Refused (app.letGo ref).repo ref) := by
  obtain ⟨hmutable, hname, hexists⟩ := hknown
  have hexists' : ((app.letGo ref).repo.refs ref.fullName).isSome := by
    rw [sameNames_letGo]
    exact hexists
  unfold gitRefReplace
  refine .bind ((gitDetachHeadIfEqual_letGo hresolves ref).mono ?_ fun _ _ he => he)
  intro wasHead app₁ happ
  rw [happ]
  refine .zoom ((refReplace_safety hmutable hname hexists' commit).mono ?_ fun _ _ he => he)
  rintro ref' repo' ⟨hsafe, hnot, t, rfl⟩
  exact ⟨hsafe, hnot, sameNames_write hexists', rfl, rfl⟩

/-- Without a fault the calls abort exactly when they do not replace safely; with one
they abort at most then. -/
theorem replaceAll_safety (env : Env κ ω) (inputs : Inputs κ) (calls : List (Ref × Commit))
    (hresolves : app.repo.headCommit.isSome)
    (hknown : ∀ call ∈ calls, Known env.names app.repo call.1) :
    Program.Ends (Modify.replaceAll (gitCtx env inputs) calls) app
      (fun _ _ => ReplacesSafely env.names app (calls.map Prod.fst))
      fun e _ => (e = .abort → ¬ReplacesSafely env.names app (calls.map Prod.fst)) ∧
        (inputs.fault = none → e ≠ .abort →
          ReplacesSafely env.names app (calls.map Prod.fst)) := by
  induction calls generalizing app with
  | nil => exact .pure trivial
  | cons call calls ih =>
      unfold Modify.replaceAll
      refine .bind ((gitRefReplace_safety hresolves (hknown call List.mem_cons_self)
        call.2).mono ?_ ?_)
      · rintro ref' app₁ ⟨hsafe, hnot, hsame⟩
        have hresolves₁ : app₁.repo.headCommit.isSome := by
          rw [hsame.repo.headCommit]
          exact headResolves_letGo hresolves
        have hknown₁ : ∀ call ∈ calls, Known env.names app₁.repo call.1 := by
          intro call' hcall'
          obtain ⟨hmutable, hname, hexists⟩ := hknown call' (List.mem_cons_of_mem _ hcall')
          refine ⟨hmutable, hname, ?_⟩
          rw [hsame.repo.refs, sameNames_letGo]
          exact hexists
        have hiff : ReplacesSafely env.names app ((call :: calls).map Prod.fst) ↔
            ReplacesSafely env.names app₁ (calls.map Prod.fst) := by
          rw [List.map_cons, ReplacesSafely, hsame.replacesSafely]
          simp [hsafe, hnot]
        rw [hiff]
        exact .bind (call_throws (ih hresolves₁ hknown₁))
      · rintro e app₁ ⟨habort, hcaught⟩
        refine ⟨fun he hall => habort he hall.1, fun hfault he => ?_⟩
        have hrefused := hcaught hfault he
        refine ⟨fun htag => ?_, Or.inl hrefused⟩
        rw [Ref.isTag_of_isLocalBranch hrefused.1] at htag
        cases htag

end Replace

/-! ## The outside -/

/-- Nothing outside the program fails an assertion of it. -/
structure Env.Civil (env : Env κ ω) : Prop where
  repo : env.repo.Civil
  spawn (content : Bytes) : Program.Yields (fun _ => True) Catchable (env.spawn content)
  conflictsResolve (index : Index) (conflicts : List Conflict) :
    Program.Yields (fun _ => True) Catchable (env.conflictsResolve index conflicts)

/-- Nothing but the outside changed. -/
def OnlyOutside (app app' : App κ ω) : Prop := app' = { app with outside := app'.outside }

instance : Std.Refl (OnlyOutside (κ := κ) (ω := ω)) := ⟨fun _ => rfl⟩

instance : IsTrans (App κ ω) OnlyOutside :=
  ⟨fun _ _ _ h h' => by rw [OnlyOutside, h', h]⟩

section Outside

variable {env : Env κ ω} {inputs : Inputs κ}

theorem onlyOutside_set (o : ω) (app : App κ ω) : OnlyOutside app { app with outside := o } :=
  rfl

theorem gitCtx_quiet : (gitCtx env inputs).Quiet OnlyOutside where
  repo := Repo.Keeps.zoom onlyOutside_set _
  refPeel _ app := Program.Ends.state
    (call_ends (refl_of OnlyOutside app) fun _ _ => refl_of OnlyOutside app)
  spawn _ := Program.Keeps.zoom onlyOutside_set _
  conflictsResolve _ _ := Program.Keeps.zoom onlyOutside_set _

theorem gitCtx_civil (inputs : Inputs κ) (henv : env.Civil) : (gitCtx env inputs).Civil where
  repo := henv.repo.zoom
  spawn content := by
    unfold gitCtx
    dsimp only
    exact (henv.spawn content).zoom
  conflictsResolve index conflicts := by
    unfold gitCtx
    dsimp only
    exact (henv.conflictsResolve index conflicts).zoom

end Outside

/-- The same names of refs, with an outside where every call succeeds, nothing
conflicts, and the editor leaves one author line. -/
def obliging (env : Env κ ω) : Env κ ω :=
  { env with
    repo :=
      { mergeTrees := fun _ _ _ _ => pure ⟨[]⟩
        indexWrite := fun _ => pure ⟨0⟩
        commitStore := fun _ => pure ()
        merge := fun _ _ _ => pure ⟨true, []⟩
        blobLookup := fun _ => pure []
        blobCreate := fun _ => pure 0 }
    spawn := fun _ => pure (ascii "Author: a <a@a>")
    conflictsResolve := fun index _ => pure index }

theorem obliging_civil (env : Env κ ω) : (obliging env).Civil where
  repo :=
    { mergeTrees := fun _ _ _ _ => .pure List.Pairwise.nil
      indexWrite := fun _ => .pure trivial
      commitStore := fun _ => .pure trivial
      merge := fun _ _ _ => .pure trivial
      blobLookup := fun _ => .pure trivial
      blobCreate := fun _ => .pure trivial }
  spawn _ := .pure trivial
  conflictsResolve _ _ := .pure trivial

section Obliging

variable {env : Env κ ω}

theorem obliging_throws : (gitCtx (obliging env) noFault).Throws fun _ => False where
  merges _ _ _ _ := fun _ => Program.Ends.pure trivial
  indexWrite _ := fun _ => Program.Ends.pure trivial
  commitStore _ := fun _ => Program.Ends.pure trivial

theorem obliging_edits (htrim : Modify.Trims env.trim) :
    Modify.Edits (gitCtx (obliging env) noFault) := by
  intro e content app
  apply Program.Ends.pure
  show _ ≠ Modify.commitMessageFromString env.strings env.trim _ ∧
    ∃ author, Modify.editedAuthor e.author
      (Modify.commitMessageFromString env.strings env.trim _) = .ok author
  rw [Modify.commitMessageFromString_author htrim]
  constructor
  · intro h
    exact absurd (congrArg Modify.CommitMessage.time h) (by simp [Modify.commitMessageForCommit])
  · exact ⟨⟨ascii "a", ascii "a@a", e.author.when⟩, rfl⟩

end Obliging

/-! ## Operations that the user interface issues -/

/-- What the user interface passes to `_gitOpExec`: the operation is about the chains of
its revs, and what it is to rewrite are mutable refs of the repository.  A session starts
only where `HEAD` resolves. -/
structure Issues (env : Env κ ω) (app : App κ ω) (op : Modify.Op) : Prop where
  issued : op.Issued
  known : ∀ ref ∈ op.targets, Known env.names app.repo ref
  resolves : app.repo.headCommit.isSome

section Exec

variable {env : Env κ ω} {app : App κ ω} {op : Modify.Op}

/-- Nothing outside changes what can be replaced. -/
theorem OnlyOutside.replacesSafely {app' : App κ ω} (h : OnlyOutside app app')
    {names : RefNames} (refs : List Ref) :
    ReplacesSafely names app' refs ↔ ReplacesSafely names app refs := by
  apply SameTracked.replacesSafely
  rw [h]
  exact ⟨⟨fun _ => rfl, fun _ => Iff.rfl⟩, rfl, rfl⟩

/-- What follows the rewriting aborts only where the refs do not replace safely. -/
theorem replacesAll_safety {inputs : Inputs κ} (hissues : Issues env app op) {app' : App κ ω}
    (hout : OnlyOutside app app') {t : Program (App κ ω) Exn (Option Modify.OpResult)}
    (ht : Modify.ReplacesAll (gitCtx env inputs) op.targets t) :
    ((t app').1 = .error .abort → ¬ReplacesSafely env.names app op.targets) ∧
      (inputs.fault = none → ¬ReplacesSafely env.names app op.targets →
        (t app').1 = .error .abort) := by
  obtain ⟨calls, hcalls, hiff⟩ := ht
  have hresolves : app'.repo.headCommit.isSome := by
    rw [hout]
    exact hissues.resolves
  have hknown : ∀ call ∈ calls, Known env.names app'.repo call.1 := by
    intro call hcall
    rw [hout]
    apply hissues.known
    rw [← hcalls]
    exact List.mem_map_of_mem hcall
  have hends := replaceAll_safety env inputs calls hresolves hknown
  rw [hcalls, hout.replacesSafely] at hends
  rw [hiff app']
  rcases hrun : Modify.replaceAll (gitCtx env inputs) calls app' with ⟨e | u, app''⟩
  · obtain ⟨habort, hcaught⟩ := hends.of_error hrun
    refine ⟨fun he => habort (Except.error.inj he), fun hfault hnot => ?_⟩
    by_contra hne
    exact hnot (hcaught hfault fun he => hne (congrArg Except.error he))
  · exact ⟨nofun, fun _ hnot => absurd (hends.of_ok hrun) hnot⟩

end Exec

/-! ## An octopus merge -/

namespace Octopus

open Modify HalfMove

def side (message : String) : Commit := .mk tree [] (text message)

/-- A commit above the root. -/
def mid : Commit := .mk tree [root] (text "mid")

/-- A merge of five branches. -/
def merge : Commit :=
  .mk tree [mid, side "b", side "c", side "d", side "e"] (text "merge")

def ref : Ref := ⟨ascii "refs/heads/main", merge, none⟩

/-- The branch is checked out. -/
def app : App (Option Commit) Unit :=
  plainApp
    { refs := fun name => if name = ref.fullName then some ref.target else none
      head := .attached ref.fullName
      upstreams := fun _ => none }
    (some (.ofRef ref)) [rev ref]

/-- Delete the commit below the merge. -/
def op : Op := ⟨.delete, ⟨some (rev ref), {mid}⟩, {}⟩

/-- Delete the merge. -/
def opMerge : Op := ⟨.delete, ⟨some (rev ref), {merge}⟩, {}⟩

theorem issues (commits : Finset Commit) (hne : commits ≠ ∅)
    (hsub : ∀ c ∈ commits, c ∈ merge.chain) :
    Issues plainEnv app ⟨.delete, ⟨some (rev ref), commits⟩, {}⟩ where
  issued :=
    { source := fun _ => ⟨rev ref, rfl, hne, hsub⟩
      destination := fun h => by simp at h
      noDestination := fun _ => rfl
      single := fun h => by cases h
      sameCommit := fun _ _ _ _ h => by cases h }
  known r hr := by
    obtain rfl : r = ref := by simpa [Op.targets, rev] using hr
    exact ⟨by decide, by decide, by decide⟩
  resolves := by decide

theorem plainEnv_civil : App.plainEnv.Civil where
  repo :=
    { mergeTrees := fun _ _ _ _ => .pure (by simp [Index.Distinct])
      indexWrite := fun _ => .pure trivial
      commitStore := fun _ => .pure trivial
      merge := fun _ _ _ => .pure trivial
      blobLookup := fun _ => .pure trivial
      blobCreate := fun _ => .pure trivial }
  spawn _ := .pure trivial
  conflictsResolve _ _ := .pure trivial

end Octopus

end App
end Debase
