import Debase.Git.Existing

/-!
# Refs that stay

No method of the repository but `refDelete` takes a ref away, whatever it fails with: refs are
written under normalized names, and `HEAD` at most becomes detached (`Kept`).  What `refCopy` and
`branchCreate` return is a ref that was not there before (`AddsRef`).
-/

namespace Debase
namespace Git

open Library

/-- No ref is gone, no name is one that libgit2 would not give, and `HEAD` is attached to nothing
new. -/
structure Kept (names : RefNames) (repo repo' : Repository) : Prop where
  refs : ∀ m, (repo.refs m).isSome → (repo'.refs m).isSome
  named : ∀ m, (repo'.refs m).isSome → (repo.refs m).isSome ∨ names.normalize m = some m
  head : repo'.head = repo.head ∨ ∃ c, repo'.head = .detached c

section Kept

variable {names : RefNames} {repo repo' : Repository} {k : Bytes} {t : Target}

instance : Std.Refl (Kept names) := ⟨fun _ => ⟨fun _ h => h, fun _ h => Or.inl h, Or.inl rfl⟩⟩

instance : IsTrans Repository (Kept names) where
  trans _ _ _ h h' :=
    { refs := fun m hm => h'.refs m (h.refs m hm)
      named := fun m hm => (h'.named m hm).elim (h.named m) Or.inr
      head := by
        rcases h'.head with hhead | hhead
        · rw [hhead]
          exact h.head
        · exact Or.inr hhead }

theorem kept_write (hk : names.normalize k = some k) : Kept names repo (repo.write k t) where
  refs m hm := by
    by_cases hmk : m = k
    · simp [hmk]
    · rwa [Repository.refs_write_of_ne hmk]
  named m hm := by
    by_cases hmk : m = k
    · exact Or.inr (hmk ▸ hk)
    · rw [Repository.refs_write_of_ne hmk] at hm
      exact Or.inl hm
  head := Or.inl rfl

/-- `HEAD` does not become attached to itself. -/
theorem Kept.headName (h : Kept names repo repo') (hhead : repo.head ≠ .attached headFile) :
    repo'.head ≠ .attached headFile := by
  rcases h.head with heq | ⟨c, heq⟩
  · rwa [heq]
  · rw [heq]
    exact nofun

end Kept

/-! ## The methods -/

/-- However the program ends, no ref is gone. -/
abbrev KeepsRefs {α : Type} (names : RefNames) (x : Program Repository Exn α) : Prop :=
  Program.Keeps (Kept names) x

section Methods

variable {names : RefNames} {fault : Fault}

theorem read_keepsRefs : KeepsRefs names Program.read := fun repo => refl_of (Kept names) repo

theorem call_keepsRefs (c : Call) : KeepsRefs names (call fault c) := fun repo =>
  Program.Ends.state (call_ends (refl_of (Kept names) repo) fun _ _ => refl_of (Kept names) repo)

theorem revReload_keepsRefs (c : Call) (rev : GitRev) : KeepsRefs names (revReload fault c rev) := by
  unfold revReload
  cases rev.ref with
  | none => exact .pure _
  | some ref =>
      refine (call_keepsRefs c).bind fun _ => .bind (read_keepsRefs.bind fun repo => ?_) fun _ => .pure _
      cases repo.lookup ref.fullName with
      | none => exact .fail _
      | some ref => exact .pure _

theorem tagLookup_keepsRefs (name : Bytes) : KeepsRefs names (tagLookup names fault name) := by
  refine (call_keepsRefs _).bind fun _ => .bind (read_keepsRefs.bind fun repo => ?_) fun ref => ?_
  · cases dwimLoop names repo (dwimNames name) .notFound with
    | ok ref => exact .pure _
    | error code => exact .fail _
  · split
    · exact .pure _
    · exact .fail _

theorem upstream_keepsRefs (c : Call) (branch : Ref) : KeepsRefs names (upstream fault c branch) :=
  (call_keepsRefs c).bind fun _ => read_keepsRefs.bind fun _ => .pure _

theorem upstreamSet_keepsRefs (branch up : Ref) :
    KeepsRefs names (upstreamSet names fault branch up) := by
  refine (call_keepsRefs _).bind fun _ => read_keepsRefs.bind fun repo => ?_
  dsimp only
  split
  · exact .fail _
  · exact .update fun _ => ⟨fun _ h => h, fun _ h => Or.inl h, Or.inl rfl⟩

theorem branchCreate_keepsRefs (name : Bytes) (commit : Commit) (force : Bool) :
    KeepsRefs names (branchCreate names fault name commit force) := by
  intro repo
  refine Program.Ends.state ((branchCreate_ends name commit force).mono ?_ ?_)
  · rintro ref repo' ⟨k, hk, -, rfl, -⟩
    exact kept_write (names.normalize_normalize hk)
  · rintro e repo' ⟨rfl, -⟩
    exact refl_of (Kept names) _

theorem gitTagCreate_keepsRefs (name : Bytes) (commit : Commit) (ann : Option TagAnnotation)
    (force : Bool) : KeepsRefs names (gitTagCreate names fault name commit ann force) := by
  refine (call_keepsRefs _).bind fun _ => read_keepsRefs.bind fun repo => ?_
  cases hk : names.normalize (Ref.tagsDir ++ name) with
  | none => exact .fail _
  | some k =>
      dsimp only
      split
      · exact .fail _
      · exact .update fun _ => kept_write (names.normalize_normalize hk)

theorem refReplace_keepsRefs (ref : Ref) (commit : Commit) :
    KeepsRefs names (refReplace names fault ref commit) := by
  unfold refReplace
  split
  · refine (upstream_keepsRefs _ _).bind fun up => (branchCreate_keepsRefs _ _ _).bind fun branch =>
      (upstream_keepsRefs _ _).bind fun up' => ?_
    split
    · exact (upstreamSet_keepsRefs _ _).bind fun _ => .pure _
    · exact .pure _
  · split
    · unfold tagReplace tagCreate tagCreateAnnotated
      cases ref.annotation with
      | none => exact (gitTagCreate_keepsRefs _ _ _ _).bind fun _ => tagLookup_keepsRefs _
      | some ann =>
          dsimp only
          cases ann.author with
          | none => exact .fail _
          | some author => exact (gitTagCreate_keepsRefs _ _ _ _).bind fun _ => tagLookup_keepsRefs _
    · exact .fail _

theorem headDetach_keepsRefs : KeepsRefs names (headDetach fault) := by
  refine (call_keepsRefs _).bind fun _ => read_keepsRefs.bind fun repo => ?_
  cases repo.headCommit with
  | none => exact .fail _
  | some commit => exact .update fun _ => ⟨fun _ h => h, fun _ h => Or.inl h, Or.inr ⟨commit, rfl⟩⟩

theorem reflogRememberRef_keepsRefs (ref : Ref) : KeepsRefs names (reflogRememberRef fault ref) := by
  refine (call_keepsRefs _).bind fun _ => read_keepsRefs.bind fun repo => ?_
  cases repo.headCommit with
  | none => exact .fail _
  | some commit => exact .pure _

end Methods

/-- A branch that is replaced is a branch. -/
theorem refReplace_isBranch {repo : Repository} {ref : Ref} (hbranch : ref.isLocalBranch = true)
    (commit : Commit) :
    Program.Returns (refReplace names fault ref commit) repo fun ref' _ => ref'.isBranch = true := by
  unfold refReplace branchReplace
  rw [if_pos hbranch]
  refine .bind (.of_forall fun _ _ => trivial) fun up repo₁ _ => ?_
  refine .bind_ends ((branchCreate_ends ref.name commit true).mono ?_ fun _ _ _ => trivial)
  rintro ref' repo₂ ⟨k, hk, -, -, rfl⟩
  have hlocal : (Target.handle ⟨commit, none⟩ k).isBranch = true := by
    have hpre : Ref.headsDir.isPrefixOf k = true := by
      simpa using (names.normalize_dir (Or.inl rfl) hk).2
    simp [Ref.isBranch, Ref.isLocalBranch, hpre]
  refine .bind (.of_forall fun _ _ => trivial) fun up' repo₃ _ => ?_
  split
  · exact .bind (.of_forall fun _ _ => trivial) fun _ _ _ => .pure hlocal
  · exact .pure hlocal

/-! ## Creating a ref -/

/-- A program returns a ref that was not there before, and takes no ref away however it ends. -/
def AddsRef (names : RefNames) (repo : Repository) (x : Program Repository Exn Ref) : Prop :=
  Program.Ends x repo
    (fun ref repo' => Kept names repo repo' ∧ ref.fullName ≠ headFile ∧
      repo.refs ref.fullName = none ∧ (repo'.refs ref.fullName).isSome)
    fun _ repo' => Kept names repo repo'

section AddsRef

variable {names : RefNames} {fault : Fault} {repo : Repository}

theorem branchCreate_addsRef (name : Bytes) (commit : Commit) :
    AddsRef names repo (branchCreate names fault name commit false) := by
  refine (branchCreate_ends name commit false).mono ?_ ?_
  · rintro ref repo' ⟨k, hk, hfree, rfl, rfl⟩
    have hdir := (names.normalize_dir (Or.inl rfl) hk).2
    refine ⟨kept_write (names.normalize_normalize hk),
      Repository.ne_headFile_of_dir (Or.inl rfl) hdir, hfree rfl, ?_⟩
    simp
  · rintro e repo' ⟨rfl, -⟩
    exact refl_of (Kept names) _

/-- A copy is a new ref, where a tag is found by its new name. -/
theorem refCopy_addsRef (hhead : repo.head ≠ .attached headFile) {ref : Ref} {name : Bytes}
    (hclear : ref.isTag = true → TagNameClear names repo name) (commit : Option Commit) :
    AddsRef names repo (refCopy names fault ref name commit) := by
  by_cases hcopy : ref.isBranch = true ∨ ref.isTag = true
  · have hclear' : CopyClear names repo ref name := by
      intro hbranch
      refine hclear (hcopy.resolve_left ?_)
      rw [hbranch]
      exact Bool.false_ne_true
    have hcopyDir : ref.copyDir = Ref.headsDir ∨ ref.copyDir = Ref.tagsDir := by
      unfold Ref.copyDir
      split
      · exact Or.inl rfl
      · exact Or.inr rfl
    refine (refCopy_ends hhead ref name commit).mono ?_ ?_
    · rintro ref' repo' ⟨k, t, hk, hfree, -, rfl, -, hfound⟩
      rw [hfound hclear']
      exact ⟨kept_write (names.normalize_normalize hk),
        Repository.ne_headFile_of_dir hcopyDir (names.normalize_dir hcopyDir hk).2, hfree, by simp⟩
    · rintro e repo' ⟨hrepo | ⟨k, t, hk, -, hrepo⟩, -⟩
      · rw [hrepo]
        exact refl_of (Kept names) _
      · rw [hrepo]
        exact kept_write (names.normalize_normalize hk)
  · rw [not_or] at hcopy
    unfold refCopy
    simp only [if_neg hcopy.1, if_neg hcopy.2]
    exact Program.Ends.fail (refl_of (Kept names) _)

end AddsRef

end Git
end Debase
