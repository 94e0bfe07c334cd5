import Debase.Git.RefSafety

/-!
# Which refs exist

Creating refs adds names and changes nothing else (`Grown`), also where it throws.
Replacing a ref adds no name, and what it returns is found by the short name of a tag.
No call on refs throws the exception of a canceled conflict resolution.
-/

namespace Debase
namespace Git

open Library

/-- Refs may be new, under names as libgit2 gives them. -/
structure Grown (names : RefNames) (repo repo' : Repository) : Prop where
  kept : ∀ m t, repo.refs m = some t → repo'.refs m = some t
  named : ∀ m t, repo'.refs m = some t → repo.refs m = some t ∨ names.normalize m = some m
  head : repo'.head = repo.head

section Names

variable {names : RefNames} {repo repo' repo'' : Repository} {k m : Bytes} {t : Target}

theorem Grown.refl : Grown names repo repo :=
  ⟨fun _ _ h => h, fun _ _ h => Or.inl h, rfl⟩

theorem Grown.trans (h : Grown names repo repo') (h' : Grown names repo' repo'') :
    Grown names repo repo'' where
  kept m t hm := h'.kept m t (h.kept m t hm)
  named m t hm := by
    rcases h'.named m t hm with hm | hm
    · exact h.named m t hm
    · exact Or.inr hm
  head := h'.head.trans h.head

theorem Grown.write (hk : names.normalize k = some k) (hfree : repo.refs k = none) :
    Grown names repo (repo.write k t) where
  kept m u hm := by
    have hne : m ≠ k := by
      rintro rfl
      rw [hm] at hfree
      cases hfree
    rw [Repository.refs_write_of_ne hne, hm]
  named m u hm := by
    by_cases hmk : m = k
    · exact Or.inr (hmk ▸ hk)
    · rw [Repository.refs_write_of_ne hmk] at hm
      exact Or.inl hm
  head := rfl

/-- Everything that was found is found, and the same. -/
theorem Grown.lookup (h : Grown names repo repo') {ref : Ref} (hm : repo.lookup m = some ref) :
    repo'.lookup m = some ref := by
  have hrefs : ∀ (b : Bytes) (f : Target → Ref), (repo.refs b).map f = some ref →
      (repo'.refs b).map f = some ref := by
    intro b f hb
    obtain ⟨u, hu, rfl⟩ := Option.map_eq_some_iff.mp hb
    rw [h.kept b u hu]
    rfl
  unfold Repository.lookup at hm ⊢
  rw [h.head]
  by_cases hhead : m = headFile
  · rw [if_pos hhead] at hm ⊢
    cases hrepo : repo.head with
    | attached b =>
        rw [hrepo] at hm
        exact hrefs b _ hm
    | detached c =>
        rw [hrepo] at hm
        exact hm
  · rw [if_neg hhead] at hm ⊢
    exact hrefs m _ hm

/-- Writing a ref that exists takes no lookup away and adds none. -/
theorem isSome_lookup_write_iff (hk : (repo.refs k).isSome) :
    ((repo.write k t).lookup m).isSome = (repo.lookup m).isSome := by
  have hrefs := (sameNames_write (t := t) hk).refs
  have hhead : (repo.write k t).head = repo.head := rfl
  unfold Repository.lookup
  rw [hhead]
  by_cases hm : m = headFile
  · rw [if_pos hm, if_pos hm]
    cases repo.head with
    | attached b => simpa using hrefs b
    | detached c => rfl
  · rw [if_neg hm, if_neg hm]
    simpa using hrefs m

end Names

section Calls

variable {names : RefNames} {fault : Fault} {repo : Repository}

theorem call_returns {σ : Type} {c : Call} {s : σ} :
    Program.Returns (call fault c) s fun _ s' => s' = s :=
  .of_ends (E := fun _ _ => True) (call_ends rfl fun _ _ => trivial)

/-- A call that creates a ref. -/
def Grows (names : RefNames) (repo : Repository) (x : Program Repository Exn Ref) : Prop :=
  Program.Ends x repo (fun ref repo' => Grown names repo repo' ∧ repo'.Current ref)
    fun _ repo' => Grown names repo repo'

theorem branchCreate_grows (name : Bytes) (commit : Commit) :
    Grows names repo (branchCreate names fault name commit false) := by
  refine (branchCreate_ends name commit false).mono ?_ ?_
  · rintro ref repo' ⟨k, hk, hfree, rfl, rfl⟩
    have hdir := (names.normalize_dir (Or.inl rfl) hk).2
    exact ⟨.write (names.normalize_normalize hk) (hfree rfl),
      Repository.current_write (Repository.ne_headFile_of_dir (Or.inl rfl) hdir)⟩
  · rintro e repo' ⟨hrepo, -⟩
    rw [hrepo]
    exact .refl

theorem refCopy_grows (hhead : repo.head ≠ .attached headFile) (ref : Ref) (name : Bytes)
    (commit : Option Commit) : Grows names repo (refCopy names fault ref name commit) := by
  refine (refCopy_ends hhead ref name commit).mono ?_ ?_
  · rintro ref' repo' ⟨k, t, hk, hfree, -, rfl, hcurrent, -⟩
    exact ⟨.write (names.normalize_normalize hk) hfree, hcurrent⟩
  · rintro e repo' ⟨hrepo | ⟨k, t, hk, hfree, hrepo⟩, -⟩
    · rw [hrepo]
      exact .refl
    · rw [hrepo]
      exact .write (names.normalize_normalize hk) hfree

/-! ## Exceptions -/

/-- An exception that does not mean that the user canceled. -/
def NotCanceled (e : Exn) : Prop := e ≠ .conflictResolveCanceled

theorem call_yields {σ : Type} (c : Call) :
    Program.Yields (fun _ => True) NotCanceled (call fault c : Program σ Exn Unit) := by
  intro s
  exact call_ends trivial fun _ _ => nofun

theorem upstream_yields (c : Call) (branch : Ref) :
    Program.Yields (fun _ => True) NotCanceled (upstream fault c branch) := by
  unfold upstream
  refine (call_yields c).bind fun _ _ => ?_
  exact (Program.Yields.read fun _ => trivial).bind fun _ _ => .pure trivial

theorem upstreamSet_yields (branch up : Ref) :
    Program.Yields (fun _ => True) NotCanceled (upstreamSet names fault branch up) := by
  unfold upstreamSet
  refine (call_yields _).bind fun _ _ => ?_
  refine (Program.Yields.read fun _ => trivial).bind fun _ _ => ?_
  dsimp only
  split
  · exact .fail nofun
  · exact .update trivial

theorem branchCreate_yields (name : Bytes) (commit : Commit) (force : Bool) :
    Program.Yields (fun _ => True) NotCanceled (branchCreate names fault name commit force) := by
  unfold branchCreate
  refine (call_yields _).bind fun _ _ => ?_
  refine (Program.Yields.read fun _ => trivial).bind fun _ _ => ?_
  split
  · exact .fail nofun
  · split
    · exact .fail nofun
    · split
      · exact .fail nofun
      · split
        · exact .fail nofun
        · refine Program.Yields.bind (P := fun _ => True) (.update trivial) fun _ _ => ?_
          exact .pure trivial

theorem gitTagCreate_yields (name : Bytes) (commit : Commit) (ann : Option TagAnnotation)
    (force : Bool) :
    Program.Yields (fun _ => True) NotCanceled
      (gitTagCreate names fault name commit ann force) := by
  unfold gitTagCreate
  refine (call_yields _).bind fun _ _ => ?_
  refine (Program.Yields.read fun _ => trivial).bind fun _ _ => ?_
  split
  · exact .fail nofun
  · split
    · exact .fail nofun
    · exact .update trivial

/-- Looking up a tag returns a tag. -/
theorem tagLookup_yields (name : Bytes) :
    Program.Yields (fun ref => ref.isTag = true) NotCanceled (tagLookup names fault name) := by
  unfold tagLookup refLookup
  refine (call_yields _).bind fun _ _ => ?_
  refine Program.Yields.bind (P := fun _ => True) ?_ fun ref _ => ?_
  · refine (Program.Yields.read fun _ => trivial).bind fun _ _ => ?_
    split
    · exact .pure trivial
    · exact .fail nofun
  · split
    · next htag => exact .pure htag
    · exact .fail nofun

theorem refReplace_yields (ref : Ref) (commit : Commit) :
    Program.Yields (fun _ => True) NotCanceled (refReplace names fault ref commit) := by
  unfold refReplace
  split
  · unfold branchReplace
    refine (upstream_yields _ _).bind fun _ _ => ?_
    refine (branchCreate_yields _ _ _).bind fun _ _ => ?_
    refine (upstream_yields _ _).bind fun _ _ => ?_
    split
    · exact (upstreamSet_yields _ _).bind fun _ _ => .pure trivial
    · exact .pure trivial
  · split
    · have hwrite : ∀ ann, Program.Yields (fun _ => True) NotCanceled
          (gitTagCreate names fault ref.name commit ann true >>= fun _ =>
            tagLookup names fault ref.name) := by
        intro ann
        refine (gitTagCreate_yields _ _ _ _).bind fun _ _ => ?_
        exact (tagLookup_yields _).mono (fun _ _ => trivial) fun _ he => he
      unfold tagReplace
      cases ref.annotation with
      | none => exact hwrite none
      | some ann =>
          dsimp only
          unfold tagCreateAnnotated
          cases ann.author with
          | none => exact .fail nofun
          | some author => exact hwrite _
    · exact .fail nofun

/-! ## Replacing and deleting -/

/-- The ref that a replaced ref is found as: a tag is looked up by its short name. -/
def Found (names : RefNames) (repo : Repository) (ref found : Ref) : Prop :=
  if ref.isTag then dwimLoop names repo (dwimNames ref.name) .notFound = .ok found
  else found.fullName = ref.fullName

/-- A ref that may be changed is found as one that may be changed. -/
theorem refReplace_returns {ref : Ref} (hhead : repo.head ≠ .attached headFile)
    (hmutable : ref.isMutable = true) (hname : names.normalize ref.fullName = some ref.fullName)
    (commit : Commit) :
    Program.Returns (refReplace names fault ref commit) repo fun ref' repo' =>
      (∃ ann, repo' = repo.write ref.fullName ⟨commit, ann⟩) ∧ repo'.Current ref' ∧
        ref'.isMutable = true ∧ Found names repo' ref ref' := by
  obtain ⟨hdir, hfull, hlocal⟩ := Ref.copyDir_of_isMutable hmutable
  unfold refReplace
  by_cases hbranch : ref.isLocalBranch = true
  · have htag : ¬ref.isTag = true := by
      intro htag
      have hno := Ref.isBranch_of_isTag htag
      rw [hlocal.mp hbranch] at hno
      cases hno
    rw [if_pos hbranch]
    rw [show ref.copyDir = Ref.headsDir from if_pos (hlocal.mp hbranch)] at hfull
    refine .of_ends ((branchReplace_ends commit (by rw [hfull, hname]) (hlocal.mp hbranch)).mono
      ?_ fun _ _ h => h)
    rintro ref' repo' ⟨ann, rfl, rfl⟩
    refine ⟨⟨ann, rfl⟩, Repository.current_write (Ref.ne_headFile_of_isMutable hmutable), ?_, ?_⟩
    · rw [← hmutable]
      exact Ref.isMutable_congr rfl
    unfold Found
    rw [if_neg htag]
    rfl
  · have htag : ref.isTag = true := by simpa [Ref.isMutable, hbranch] using hmutable
    have hnot := Ref.isBranch_of_isTag htag
    rw [if_neg hbranch, if_pos htag]
    rw [show ref.copyDir = Ref.tagsDir from if_neg (by rw [hnot]; exact Bool.false_ne_true)] at hfull
    -- a tag is written over and then looked up by its short name
    have hwrite : ∀ ann, Program.Returns
        (gitTagCreate names fault ref.name commit ann true >>= fun _ =>
          tagLookup names fault ref.name) repo fun ref' repo' =>
        (∃ ann, repo' = repo.write ref.fullName ⟨commit, ann⟩) ∧ repo'.Current ref' ∧
          ref'.isMutable = true ∧ Found names repo' ref ref' := by
      intro ann
      have hcreate : Program.Returns (gitTagCreate names fault ref.name commit ann true) repo
          fun _ repo' => repo' = repo.write ref.fullName ⟨commit, ann⟩ := by
        unfold gitTagCreate
        refine .bind call_returns ?_
        rintro - _ rfl
        refine .read_bind ?_
        rw [hfull, hname]
        dsimp only
        rw [if_neg (by simp)]
        exact .update rfl
      refine hcreate.bind ?_
      rintro - _ rfl
      have hhead' : (repo.write ref.fullName ⟨commit, ann⟩).head ≠ .attached headFile := hhead
      refine .of_ends (((tagLookup_ends hhead').and (tagLookup_yields ref.name _)).mono ?_
        fun _ _ h => h)
      rintro ref' _ ⟨⟨rfl, hcurrent, hfound⟩, htag'⟩
      refine ⟨⟨ann, rfl⟩, hcurrent, by simp [Ref.isMutable, htag'], ?_⟩
      unfold Found
      rw [if_pos htag]
      exact hfound
    unfold tagReplace
    cases ref.annotation with
    | none => exact hwrite none
    | some ann =>
        dsimp only
        unfold tagCreateAnnotated
        cases ann.author with
        | none => exact .fail
        | some author => exact hwrite _

theorem refDelete_returns (ref : Ref) :
    Program.Returns (refDelete fault ref) repo fun _ repo' =>
      repo' = repo.remove ref.fullName := by
  unfold refDelete
  split
  · refine .bind call_returns ?_
    rintro - _ rfl
    refine .read_bind ?_
    split
    · exact .update rfl
    · exact .fail
  · exact .fail

theorem reflogRememberRef_returns (ref : Ref) :
    Program.Returns (reflogRememberRef fault ref) repo fun _ repo' => repo' = repo := by
  unfold reflogRememberRef
  refine .bind call_returns ?_
  rintro - _ rfl
  refine .read_bind ?_
  split
  · exact .fail
  · exact .pure rfl

end Calls

end Git
end Debase
