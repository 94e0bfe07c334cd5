import Debase.Git.Object
import Debase.Library.Program

/-!
# Rewriting one commit

`Git::Repo` as far as it makes commits: the libgit2 calls it makes are fields of
`Repo`, and its own methods are programs over them.  `commitParentSet` merges
what a commit changed into another parent, `commitParentSetFinish` writes the
commit with its first parent replaced; `commitIntegrate` and
`commitIntegrateFinish` do the same for melting a commit into another one.

`git_cherrypick_commit` is modelled down to the one call of `git_merge_trees` it
makes, so all content is decided by `mergeTrees`.
-/

namespace Debase
namespace Git

open Library

/-- `git_merge_file_result`: whether the merge left no conflict, and its text. -/
structure MergeFileResult where
  automergeable : Bool
  content : Bytes
deriving DecidableEq

/-- `git_merge_file_favor_t`. -/
inductive FileFavor where
  | normal
  | ours
  | theirs
  | union
deriving DecidableEq

/-- The libgit2 calls of `Git::Repo` that read or write objects.  Each may
fail, and `σ` is whatever state the outside has. -/
structure Repo (σ : Type) where
  /-- `git_merge_trees`; a missing tree is the empty tree. -/
  mergeTrees (favor : FileFavor) (ancestor ours theirs : Option Tree) : Program σ Exn Index
  /-- `Repo::indexWrite`. -/
  indexWrite (index : Index) : Program σ Exn Tree
  /-- The write of a commit object and the lookup of its id. -/
  commitStore (commit : Commit) : Program σ Exn Unit
  /-- `Repo::merge` (`git_merge_file_from_index`). -/
  merge (ancestor ours theirs : Option IndexEntry) : Program σ Exn MergeFileResult
  /-- `Repo::blobLookup`. -/
  blobLookup (id : Oid) : Program σ Exn Bytes
  /-- `Repo::blobCreate`. -/
  blobCreate (data : Bytes) : Program σ Exn Oid

/-- Every call of a repo relates the states before and after it. -/
structure Repo.Keeps {σ : Type} (R : σ → σ → Prop) (repo : Repo σ) : Prop where
  mergeTrees (favor : FileFavor) (ancestor ours theirs : Option Tree) :
    Program.Keeps R (repo.mergeTrees favor ancestor ours theirs)
  indexWrite (index : Index) : Program.Keeps R (repo.indexWrite index)
  commitStore (commit : Commit) : Program.Keeps R (repo.commitStore commit)
  merge (ancestor ours theirs : Option IndexEntry) :
    Program.Keeps R (repo.merge ancestor ours theirs)
  blobLookup (id : Oid) : Program.Keeps R (repo.blobLookup id)
  blobCreate (data : Bytes) : Program.Keeps R (repo.blobCreate data)

/-- The libgit2 calls on a part of a larger state. -/
def Repo.zoom {σ τ : Type} (get : τ → σ) (set : σ → τ → τ) (repo : Repo σ) : Repo τ where
  mergeTrees favor ancestor ours theirs :=
    (repo.mergeTrees favor ancestor ours theirs).zoom get set
  indexWrite index := (repo.indexWrite index).zoom get set
  commitStore commit := (repo.commitStore commit).zoom get set
  merge ancestor ours theirs := (repo.merge ancestor ours theirs).zoom get set
  blobLookup id := (repo.blobLookup id).zoom get set
  blobCreate data := (repo.blobCreate data).zoom get set

/-- They keep what the part does not reach. -/
theorem Repo.Keeps.zoom {σ τ : Type} {get : τ → σ} {set : σ → τ → τ} {R : τ → τ → Prop}
    (hset : ∀ s t, R t (set s t)) (repo : Repo σ) : (repo.zoom get set).Keeps R where
  mergeTrees _ _ _ _ := Program.Keeps.zoom hset _
  indexWrite _ := Program.Keeps.zoom hset _
  commitStore _ := Program.Keeps.zoom hset _
  merge _ _ _ := Program.Keeps.zoom hset _
  blobLookup _ := Program.Keeps.zoom hset _
  blobCreate _ := Program.Keeps.zoom hset _

namespace Repo

variable {σ : Type} (repo : Repo σ)

/-- `treesMerge`. -/
def treesMerge (fileFavor : FileFavor) (ancestorTree dstTree srcTree : Option Tree) :
    Program σ Exn Index :=
  repo.mergeTrees fileFavor ancestorTree dstTree srcTree

/-- `git_cherrypick_commit`: a merge commit needs a mainline, any other commit
must not have one; the parent's tree is the ancestor of the merge. -/
def cherrypickCommit (fileFavor : FileFavor) (commit onto : Commit) (mainline : Nat) :
    Program σ Exn Index :=
  if commit.isMerge && mainline = 0 then .fail (.gitError .other)
  else if !commit.isMerge && mainline ≠ 0 then .fail (.gitError .other)
  else
    let parent := if commit.isMerge then mainline else commit.parents.length
    let parentTree :=
      if parent = 0 then none else (commit.parent (parent - 1)).map Commit.tree
    repo.mergeTrees fileFavor parentTree (some onto.tree) (some commit.tree)

/-- `commitParentSet`. -/
def commitParentSet (fileFavor : FileFavor) (commit : Commit) (parent : Option Commit) :
    Program σ Exn Index :=
  match parent with
  | some parent =>
      let mainline := if commit.isMerge then 1 else 0
      repo.cherrypickCommit fileFavor commit parent mainline
  | none =>
      let oldParent := commit.parent
      let oldParentTree := oldParent.map Commit.tree
      repo.treesMerge fileFavor oldParentTree none (some commit.tree)

/-- `git_commit_create` and the lookup of the new commit. -/
def commitCreate (tree : Tree) (parents : List Commit) (author committer : Signature)
    (encoding : Option Bytes) (message : Bytes) : Program σ Exn Commit := do
  let commit := Commit.create tree parents author committer encoding message
  repo.commitStore commit
  pure commit

/-- `commitAmend` of parents and tree. -/
def commitAmendParents (commit : Commit) (parents : List Commit) (tree : Tree) :
    Program σ Exn Commit :=
  -- the array on the stack is asserted to be small
  if 4 < parents.length then .fail .abort
  else
    repo.commitCreate tree parents commit.author commit.committer commit.encoding
      commit.message

/-- `commitParentSetFinish`. -/
def commitParentSetFinish (index : Index) (commit : Commit) (parent : Option Commit) :
    Program σ Exn Commit := do
  let tree ← repo.indexWrite index
  repo.commitAmendParents commit (parent.toList ++ commit.parents.drop 1) tree

/-- `git_commit_amend`: an argument that is null keeps the commit's own value. -/
def gitCommitAmend (commit : Commit) (author committer : Option Signature)
    (encoding message : Option Bytes) (tree : Option Tree) : Program σ Exn Commit :=
  repo.commitCreate (tree.getD commit.tree) commit.parents (author.getD commit.author)
    (committer.getD commit.committer) (encoding.or commit.encoding)
    (message.getD commit.message)

/-- `commitAmend` of author and message; the author becomes the committer too. -/
def commitAmendAuthor (commit : Commit) (author : Signature) (msg : Bytes) :
    Program σ Exn Commit :=
  repo.gitCommitAmend commit (some author) (some author) none
    (if msg.isEmpty then none else some msg) none

/-- `commitIntegrate`.  A `src` without a parent is a null dereference. -/
def commitIntegrate (fileFavor : FileFavor) (dst src : Commit) : Program σ Exn Index :=
  match src.parent with
  | none => .fail .abort
  | some parent =>
      repo.treesMerge fileFavor (some parent.tree) (some dst.tree) (some src.tree)

/-- `commitIntegrateFinish`: the messages are joined by a newline. -/
def commitIntegrateFinish (index : Index) (dst src : Commit) : Program σ Exn Commit := do
  let newTree ← repo.indexWrite index
  let msg := dst.message ++ [10] ++ src.message
  repo.gitCommitAmend dst none none dst.encoding (some msg) (some newTree)

/-! ## What the methods do -/

/-- Cherry-picking and merging onto nothing are the same merge of three trees. -/
theorem commitParentSet_eq (fileFavor : FileFavor) (commit : Commit)
    (parent : Option Commit) : repo.commitParentSet fileFavor commit parent =
      repo.mergeTrees fileFavor (commit.parent.map Commit.tree) (parent.map Commit.tree)
        (some commit.tree) := by
  cases parent with
  | none => rfl
  | some onto =>
      rcases commit with ⟨tree, _ | ⟨p, _ | ⟨q, ps⟩⟩, text⟩
      · rfl
      · rfl
      · simp [commitParentSet, cherrypickCommit, Commit.isMerge, Commit.parent]

theorem commitCreate_ok {tree : Tree} {parents : List Commit} {author committer : Signature}
    {encoding : Option Bytes} {message : Bytes} {s s' : σ} {c : Commit}
    (h : repo.commitCreate tree parents author committer encoding message s = (.ok c, s')) :
    c = Commit.create tree parents author committer encoding message := by
  obtain ⟨_, s₁, _, hpure⟩ := Program.bind_eq_ok.mp h
  cases hpure
  rfl

/-- What `commitParentSetFinish` writes. -/
theorem commitParentSetFinish_ok {index : Index} {commit : Commit} {parent : Option Commit}
    {s s' : σ} {c : Commit}
    (h : repo.commitParentSetFinish index commit parent s = (.ok c, s')) :
    ∃ tree s₁, repo.indexWrite index s = (.ok tree, s₁) ∧
      c = Commit.create tree (parent.toList ++ commit.parents.drop 1) commit.author
        commit.committer commit.encoding commit.message := by
  obtain ⟨tree, s₁, hwrite, hamend⟩ := Program.bind_eq_ok.mp h
  refine ⟨tree, s₁, hwrite, ?_⟩
  unfold commitAmendParents at hamend
  split at hamend
  · simp at hamend
  · exact repo.commitCreate_ok hamend

section Keeps

variable {repo} {R : σ → σ → Prop}

theorem Keeps.commitParentSet (hrepo : repo.Keeps R) (fileFavor : FileFavor)
    (commit : Commit) (parent : Option Commit) :
    Program.Keeps R (repo.commitParentSet fileFavor commit parent) := by
  rw [commitParentSet_eq]
  exact hrepo.mergeTrees _ _ _ _

variable [Std.Refl R]

theorem Keeps.commitIntegrate (hrepo : repo.Keeps R) (fileFavor : FileFavor)
    (dst src : Commit) : Program.Keeps R (repo.commitIntegrate fileFavor dst src) := by
  unfold Repo.commitIntegrate
  split
  · exact Program.Keeps.fail _
  · exact hrepo.mergeTrees _ _ _ _

variable [IsTrans σ R]

theorem Keeps.commitCreate (hrepo : repo.Keeps R) (tree : Tree) (parents : List Commit)
    (author committer : Signature) (encoding : Option Bytes) (message : Bytes) :
    Program.Keeps R (repo.commitCreate tree parents author committer encoding message) :=
  (hrepo.commitStore _).bind fun _ => Program.Keeps.pure _

theorem Keeps.commitParentSetFinish (hrepo : repo.Keeps R) (index : Index)
    (commit : Commit) (parent : Option Commit) :
    Program.Keeps R (repo.commitParentSetFinish index commit parent) := by
  refine (hrepo.indexWrite _).bind fun tree => ?_
  unfold commitAmendParents
  split
  · exact Program.Keeps.fail _
  · exact hrepo.commitCreate _ _ _ _ _ _

theorem Keeps.commitIntegrateFinish (hrepo : repo.Keeps R) (index : Index)
    (dst src : Commit) : Program.Keeps R (repo.commitIntegrateFinish index dst src) :=
  (hrepo.indexWrite _).bind fun _ => hrepo.commitCreate _ _ _ _ _ _

end Keeps

end Repo
end Git
end Debase
