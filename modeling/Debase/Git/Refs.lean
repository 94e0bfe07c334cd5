import Debase.Git.Object
import Debase.Library.Program
import Mathlib.Logic.Function.Basic

/-!
# The refs of a repository

The methods of `Git::Repo` that read and change refs, down to the libgit2 calls
they make.  Each call may also fail for reasons the program does not know (a lock,
a full disk, a missing `user.name`); it then has no effect.  An exception ends the
operation, so a `Fault` names the one call that fails.

Branches are looked up by their full name.  A tag that was written is looked up by
its short name (`tagLookup`, `git_reference_dwim`), which may find another ref.
-/

namespace Debase
namespace Git

open Library

/-- How libgit2 treats the names of refs. -/
structure RefNames where
  /-- `git_reference__normalize_name`, `none` for a name it refuses. -/
  normalize (name : Bytes) : Option Bytes
  /-- `git_reference_name_is_valid`, which does not normalize. -/
  isValid (name : Bytes) : Bool
  /-- `git_branch_remote_name`, for the full name of a remote-tracking branch. -/
  remoteName (fullName : Bytes) : Option Bytes
  normalize_normalize {s t : Bytes} (h : normalize s = some t) : normalize t = some t
  isValid_of_normalize {s : Bytes} (h : normalize s = some s) : isValid s = true
  /-- The directory of a branch or tag stays in front, and is no name by itself. -/
  normalize_dir {dir s t : Bytes} (hdir : dir = Ref.headsDir ∨ dir = Ref.tagsDir)
    (h : normalize (dir ++ s) = some t) : s ≠ [] ∧ dir <+: t

/-- What a direct ref holds: the commit it peels to, and the annotation if it is
an annotated tag. -/
structure Target where
  commit : Commit
  annotation : Option TagAnnotation
deriving DecidableEq

/-- The file `HEAD`. -/
inductive Head where
  | attached (fullName : Bytes)
  | detached (commit : Commit)
deriving DecidableEq

/-- `GIT_HEAD_FILE`. -/
def headFile : Bytes := ascii "HEAD"

/-- What a repository stores about refs.  `upstreams` is the tracked ref of a
branch by the branch's full name. -/
structure Repository where
  refs : Bytes → Option Target
  head : Head
  upstreams : Bytes → Option Bytes

/-- The handle that a lookup returns. -/
def Target.handle (t : Target) (fullName : Bytes) : Ref := ⟨fullName, t.commit, t.annotation⟩

/-- What a handle says its ref holds. -/
def Ref.target (ref : Ref) : Target := ⟨ref.commit, ref.annotation⟩

@[simp] theorem Ref.handle_target (ref : Ref) : ref.target.handle ref.fullName = ref := rfl

@[simp] theorem Target.target_handle (t : Target) (k : Bytes) : (t.handle k).target = t := rfl

@[simp] theorem Target.fullName_handle (t : Target) (k : Bytes) : (t.handle k).fullName = k := rfl

namespace Ref

/-- `Ref::isRemoteBranch` (`git_reference_is_remote`). -/
def isRemoteBranch (ref : Ref) : Bool := remotesDir.isPrefixOf ref.fullName

/-- `Ref::isBranch`. -/
def isBranch (ref : Ref) : Bool := ref.isLocalBranch || ref.isRemoteBranch

/-- The refs that a column may change: local branches and tags. -/
def isMutable (ref : Ref) : Bool := ref.isLocalBranch || ref.isTag

/-- The directory that a copy of a ref is created in. -/
def copyDir (ref : Ref) : Bytes := if ref.isBranch then headsDir else tagsDir

end Ref

/-- The calls that can fail. -/
inductive Call where
  | commitLookup
  | upstream (branch : Bytes)
  | branchCreate (name : Bytes)
  | newUpstream (branch : Bytes)
  | upstreamSet (branch : Bytes)
  | branchNameLocal (branch : Bytes)
  | tagCreate (name : Bytes)
  | tagLookup (name : Bytes)
  | refDelete (ref : Bytes)
  | refPeel (ref : Bytes)
  | headDetach
  | reflogRememberRef (ref : Bytes)
  | headReload
  | revReload (i : Nat)
deriving DecidableEq

/-- The call that fails, if one does, and its error. -/
abbrev Fault := Option (Call × ErrorCode)

/-- A call that comes after an effect of the operation it belongs to. -/
def Call.isLate : Call → Bool
  | .commitLookup => false
  | .upstream _ => false
  | .branchCreate _ => false
  | .newUpstream _ => true
  | .upstreamSet _ => true
  | .branchNameLocal _ => false
  | .tagCreate _ => false
  | .tagLookup _ => true
  | .refDelete _ => true
  | .refPeel _ => true
  | .headDetach => true
  | .reflogRememberRef _ => true
  | .headReload => true
  | .revReload _ => true

/-- The call fails. -/
def Fault.At (fault : Fault) (c : Call) : Prop := ∃ code, fault = some (c, code)

instance (fault : Fault) (c : Call) : Decidable (fault.At c) :=
  match fault with
  | none => isFalse (by rintro ⟨code, h⟩; cases h)
  | some (c', code) =>
      decidable_of_iff (c' = c) ⟨fun h => ⟨code, by rw [h]⟩, by rintro ⟨_, ⟨⟩⟩; rfl⟩

/-- A late call fails. -/
def Fault.IsLate (fault : Fault) : Prop := ∃ c code, fault = some (c, code) ∧ c.isLate = true

instance (fault : Fault) : Decidable fault.IsLate :=
  match fault with
  | none => isFalse (by rintro ⟨c, code, h, -⟩; cases h)
  | some (c, code) =>
      decidable_of_iff (c.isLate = true)
        ⟨fun h => ⟨c, code, rfl, h⟩, by rintro ⟨_, _, ⟨⟩, h⟩; exact h⟩

/-- Make a call. -/
def call {σ : Type} (fault : Fault) (c : Call) : Program σ Exn Unit :=
  match fault with
  | none => pure ()
  | some (failing, code) => if failing = c then .fail (.gitError code) else pure ()

namespace Repository

/-- `git_reference_lookup` of a normalized name.  The handle of a symbolic `HEAD`
peels to the commit of its branch. -/
def lookup (repo : Repository) (fullName : Bytes) : Option Ref :=
  if fullName = headFile then
    match repo.head with
    | .attached branch => (repo.refs branch).map fun t => ⟨headFile, t.commit, none⟩
    | .detached commit => some ⟨headFile, commit, none⟩
  else (repo.refs fullName).map fun t => t.handle fullName

/-- `git_reference_lookup_resolved`. -/
def lookupResolved (repo : Repository) (fullName : Bytes) : Option Ref :=
  if fullName = headFile then
    match repo.head with
    | .attached branch => (repo.refs branch).map fun t => t.handle branch
    | .detached commit => some ⟨headFile, commit, none⟩
  else (repo.refs fullName).map fun t => t.handle fullName

/-- The commit that `HEAD` peels to. -/
def headCommit (repo : Repository) : Option Commit := (repo.lookup headFile).map Ref.commit

/-- `headResolved`, `none` where it throws.  `reflogRev` is what the last entry of
the reflog names: a tag that is checked out leaves `HEAD` detached. -/
def headResolved (repo : Repository) (reflogRev : Option GitRev) : Option GitRev :=
  (repo.lookupResolved headFile).map fun ref =>
    if ref.isBranch || ref.isTag then ⟨ref.commit, some ref⟩
    else
      match reflogRev with
      | some rev => if rev.ref.isSome && rev.commit = ref.commit then rev else ⟨ref.commit, none⟩
      | none => ⟨ref.commit, none⟩

/-- Write a ref. -/
def write (repo : Repository) (fullName : Bytes) (t : Target) : Repository :=
  { repo with refs := Function.update repo.refs fullName (some t) }

/-- Remove a ref. -/
def remove (repo : Repository) (fullName : Bytes) : Repository :=
  { repo with refs := Function.update repo.refs fullName none }

end Repository

section Methods

variable (names : RefNames) (fault : Fault)

/-! ## Lookups -/

/-- The loop of `git_reference_dwim` over the names that a short name may stand
for; `error` is the error so far. -/
def dwimLoop (repo : Repository) : List Bytes → ErrorCode → Except ErrorCode Ref
  | [], error => .error error
  | refname :: refnames, _ =>
      if names.isValid refname then
        match (names.normalize refname).bind repo.lookupResolved with
        | some ref => .ok ref
        | none => dwimLoop repo refnames .notFound
      else dwimLoop repo refnames .invalidSpec

/-- The names that `git_reference_dwim` tries, in order. -/
def dwimNames (refname : Bytes) : List Bytes :=
  if refname = [] then [headFile]
  else
    [refname, Ref.refsDir ++ refname, Ref.tagsDir ++ refname, Ref.headsDir ++ refname,
      Ref.remotesDir ++ refname, Ref.remotesDir ++ refname ++ ascii "/HEAD"]

/-- `refLookup`. -/
def refLookup (name : Bytes) : Program Repository Exn Ref := do
  let repo ← Program.read
  match dwimLoop names repo (dwimNames name) .notFound with
  | .ok ref => pure ref
  | .error code => .fail (.gitError code)

/-- `refFullNameLookup`. -/
def refFullNameLookup (name : Bytes) : Program Repository Exn Ref := do
  let repo ← Program.read
  match repo.lookup name with
  | some ref => pure ref
  | none => .fail (.gitError .notFound)

/-- `revReload`; `c` says which rev it is. -/
def revReload (c : Call) (rev : GitRev) : Program Repository Exn GitRev :=
  match rev.ref with
  | none => pure rev
  | some ref => do
      call fault c
      let ref ← refFullNameLookup ref.fullName
      pure ⟨ref.commit, some ref⟩

/-- `tagLookup`, where `Tag::ForRef` asserts that a tag was found. -/
def tagLookup (name : Bytes) : Program Repository Exn Ref := do
  call fault (.tagLookup name)
  let ref ← refLookup names name
  if ref.isTag then pure ref else .fail .abort

/-- `Branch::upstream`. -/
def upstream (c : Call) (branch : Ref) : Program Repository Exn (Option Ref) := do
  call fault c
  let repo ← Program.read
  pure ((repo.upstreams branch.fullName).bind repo.lookup)

/-! ## Writing -/

/-- `branchCreate` (`git_branch_create`).  The branch that `HEAD` is attached to
cannot be overwritten. -/
def branchCreate (name : Bytes) (commit : Commit) (force : Bool) :
    Program Repository Exn Ref := do
  call fault (.branchCreate name)
  let repo ← Program.read
  if name = headFile then .fail (.gitError .other)
  else
    match names.normalize (Ref.headsDir ++ name) with
    | none => .fail (.gitError .invalidSpec)
    | some fullName =>
        if (repo.refs fullName).isSome && !force then .fail (.gitError .exists)
        else if (repo.refs fullName).isSome && repo.head = .attached fullName then
          .fail (.gitError .other)
        else do
          Program.update fun repo => repo.write fullName ⟨commit, none⟩
          pure ⟨fullName, commit, none⟩

/-- `git_tag_create` and `git_tag_create_lightweight`. -/
def gitTagCreate (name : Bytes) (commit : Commit) ( annotation : Option TagAnnotation)
    (force : Bool) : Program Repository Exn Unit := do
  call fault (.tagCreate name)
  let repo ← Program.read
  match names.normalize (Ref.tagsDir ++ name) with
  | none => .fail (.gitError .invalidSpec)
  | some fullName =>
      if (repo.refs fullName).isSome && !force then .fail (.gitError .exists)
      else Program.update fun repo => repo.write fullName ⟨commit, annotation⟩

/-- `tagCreate`. -/
def tagCreate (name : Bytes) (commit : Commit) (force : Bool) : Program Repository Exn Ref := do
  gitTagCreate names fault name commit none force
  tagLookup names fault name

/-- `tagCreateAnnotated`; a null author is dereferenced. -/
def tagCreateAnnotated (name : Bytes) (commit : Commit) (author : Option Signature)
    (message : Bytes) (force : Bool) : Program Repository Exn Ref :=
  match author with
  | none => .fail .abort
  | some author => do
      gitTagCreate names fault name commit (some ⟨some author.stored, cString message⟩) force
      tagLookup names fault name

/-- `Branch::upstreamSet` (`git_branch_set_upstream`): a local branch of that
short name comes before a remote-tracking one. -/
def upstreamSet (branch upstream : Ref) : Program Repository Exn Unit := do
  call fault (.upstreamSet branch.fullName)
  let repo ← Program.read
  let found := [Ref.headsDir, Ref.remotesDir].findSome? fun dir =>
    (names.normalize (dir ++ upstream.name)).filter fun k => (repo.refs k).isSome
  match found with
  | none => .fail (.gitError .notFound)
  | some k => Program.update fun repo =>
      { repo with upstreams := Function.update repo.upstreams branch.fullName (some k) }

/-- `branchReplace`. -/
def branchReplace (branch : Ref) (commit : Commit) : Program Repository Exn Ref := do
  let upstream₀ ← upstream fault (.upstream branch.fullName) branch
  let newBranch ← branchCreate names fault branch.name commit true
  let newBranchUpstream ← upstream fault (.newUpstream newBranch.fullName) newBranch
  match upstream₀, newBranchUpstream with
  | some up, none => upstreamSet names fault newBranch up
  | _, _ => pure ()
  pure newBranch

/-- `tagReplace`. -/
def tagReplace (tag : Ref) (commit : Commit) : Program Repository Exn Ref :=
  match tag.annotation with
  | some ann => tagCreateAnnotated names fault tag.name commit ann.author ann.message true
  | none => tagCreate names fault tag.name commit true

/-- `refReplace`. -/
def refReplace (ref : Ref) (commit : Commit) : Program Repository Exn Ref :=
  if ref.isLocalBranch then branchReplace names fault ref commit
  else if ref.isTag then tagReplace names fault ref commit
  else .fail .abort

/-- `"unsupported ref type"`. -/
def unsupportedError : Exn := .runtimeError "unsupported ref type"

/-- `refCopy`; a null commit stands for the ref's own. -/
def refCopy (ref : Ref) (name : Bytes) (commit : Option Commit) : Program Repository Exn Ref :=
  let commit := commit.getD ref.commit
  if ref.isBranch then branchCreate names fault name commit false
  else if ref.isTag then
    match ref.annotation with
    | some ann => tagCreateAnnotated names fault name commit ann.author ann.message false
    | none => tagCreate names fault name commit false
  else .fail unsupportedError

/-- `refDelete` (`git_reference_delete`): the ref must still be what the handle
says. -/
def refDelete (ref : Ref) : Program Repository Exn Unit :=
  if ref.isLocalBranch || ref.isTag then do
    call fault (.refDelete ref.fullName)
    let repo ← Program.read
    if repo.refs ref.fullName = some ref.target then
      Program.update fun repo => repo.remove ref.fullName
    else .fail (.gitError .other)
  else .fail unsupportedError

/-- `headDetach` (`git_repository_detach_head`). -/
def headDetach : Program Repository Exn Unit := do
  call fault .headDetach
  let repo ← Program.read
  match repo.headCommit with
  | none => .fail (.gitError .other)
  | some commit => Program.update fun repo => { repo with head := .detached commit }

/-- `reflogRememberRef`: it writes to the reflog only, but needs a `HEAD` that
resolves. -/
def reflogRememberRef (ref : Ref) : Program Repository Exn Unit := do
  call fault (.reflogRememberRef ref.fullName)
  let repo ← Program.read
  match repo.headCommit with
  | none => .fail (.gitError .other)
  | some _ => pure ()

/-- `branchNameLocal`. -/
def branchNameLocal (branch : Ref) : Program Repository Exn Bytes :=
  if branch.isLocalBranch then pure branch.name
  else do
    call fault (.branchNameLocal branch.fullName)
    match names.remoteName branch.fullName with
    | none => .fail (.gitError .notFound)
    | some remote =>
        let pre := remote ++ ascii "/"
        if pre.isPrefixOf branch.name then pure (branch.name.drop pre.length)
        else .fail (.runtimeError "%s doesn't begin with %s as expected")

end Methods

/-! ## Simple names -/

/-- `HEAD`, or a path of at least two names made of letters and digits. -/
def isPlainName (s : Bytes) : Bool :=
  s = headFile ||
    (1 < (s.splitOn 47).length && (s.splitOn 47).all fun dir =>
      !dir.isEmpty && dir.all fun b => (48 ≤ b && b ≤ 57) || (65 ≤ b && b ≤ 90) || (97 ≤ b && b ≤ 122))

/-- The names that libgit2 leaves as they are, as far as they are simple. -/
def plainNames : RefNames where
  normalize s := if isPlainName s then some s else none
  isValid := isPlainName
  remoteName _ := none
  normalize_normalize {s t} h := by
    by_cases hs : isPlainName s = true
    · rw [if_pos hs] at h
      cases h
      exact if_pos hs
    · rw [if_neg hs] at h
      cases h
  isValid_of_normalize {s} h := by
    by_contra hs
    rw [if_neg hs] at h
    cases h
  normalize_dir {dir s t} hdir h := by
    by_cases hs : isPlainName (dir ++ s) = true
    · rw [if_pos hs] at h
      cases h
      refine ⟨?_, List.prefix_append _ _⟩
      rintro rfl
      rcases hdir with rfl | rfl
      · exact absurd hs (by decide)
      · exact absurd hs (by decide)
    · rw [if_neg hs] at h
      cases h

end Git
end Debase
