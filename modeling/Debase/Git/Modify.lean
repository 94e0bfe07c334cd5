import Debase.Git.Conflict
import Debase.Git.Message
import Debase.Git.Plan

/-!
# Commit operations

`git/Modify.h`: moving, copying, deleting, combining and editing commits.  Every
operation computes new commits on top of old ones and hands the new heads to the
callback `refReplace`; nothing else changes a ref.

The callbacks of `Ctx` and the calls of `Repo` are arbitrary programs over a
state `σ`, which may fail at any call.
-/

namespace Debase
namespace Git

open Library

/-- `Modify::Ctx`, with `String::Trim` and the other functions of a library that is not in
the tree. -/
structure Ctx (σ : Type) where
  repo : Repo σ
  refReplace (ref : Ref) (commit : Commit) : Program σ Exn Ref
  /-- `git_reference_peel` in `Rev(Ref)`: the handle's commit is read, which may fail. -/
  refPeel (ref : Ref) : Program σ Exn Unit
  /-- Run the editor on a temporary file with the given content; the result is
  what the file holds afterwards (`EditorRun`). -/
  spawn (content : Bytes) : Program σ Exn Bytes
  /-- Let the user resolve the conflicts; the result is the changed index. -/
  conflictsResolve (index : Index) (conflicts : List Conflict) : Program σ Exn Index
  trim : Bytes → Bytes
  strings : Toastbox.Strings

/-- Everything but the replacement of a ref relates the states before and after
it. -/
structure Ctx.Quiet {σ : Type} (R : σ → σ → Prop) (ctx : Ctx σ) : Prop where
  repo : ctx.repo.Keeps R
  refPeel (ref : Ref) : Program.Keeps R (ctx.refPeel ref)
  spawn (content : Bytes) : Program.Keeps R (ctx.spawn content)
  conflictsResolve (index : Index) (conflicts : List Conflict) :
    Program.Keeps R (ctx.conflictsResolve index conflicts)

namespace Modify

/-- `Op::Type`. -/
inductive OpType where
  | none
  | move
  | copy
  | delete
  | combine
  | edit
deriving DecidableEq

/-- `Op::src`. -/
structure OpSrc where
  rev : Option Rev
  commits : Finset Commit
deriving DecidableEq

/-- `Op::dst`: the commits are added on top of `position`. -/
structure OpDst where
  rev : Option Rev := none
  position : Option Commit := none
deriving DecidableEq

/-- `Op`. -/
structure Op where
  type : OpType
  src : OpSrc
  dst : OpDst := {}
deriving DecidableEq

/-- `OpResult::Res`. -/
structure Res where
  rev : Option Rev := none
  selection : Finset Commit := ∅
  selectionPrev : Finset Commit := ∅
deriving DecidableEq

/-- `OpResult`. -/
structure OpResult where
  src : Res := {}
  dst : Res := {}
deriving DecidableEq

section Operations

variable {σ : Type} (ctx : Ctx σ)

/-- `_ConflictsHandle`.  The index is changed in place, so it is returned. -/
def conflictsHandle (fileFavor : FileFavor) (index : Index) : Program σ Exn Index :=
  if !index.conflicts then pure index
  else do
    let fcs ← conflictsGet ctx.strings ctx.repo index
    match fileFavor with
    | .normal => ctx.conflictsResolve index fcs
    | .theirs =>
        fcs.foldlM (fun index fc =>
          conflictResolve ctx.repo index fc (fc.content ctx.strings .theirs)) index
    | .ours => .fail .abort
    | .union => .fail .abort

/-- `_CommitParentSet`. -/
def commitParentSet (fileFavor : FileFavor) (commit : Commit) (parent : Option Commit) :
    Program σ Exn Commit := do
  let index ← ctx.repo.commitParentSet fileFavor commit parent
  let index ← conflictsHandle ctx fileFavor index
  ctx.repo.commitParentSetFinish index commit parent

/-- `_CommitIntegrate`. -/
def commitIntegrate (fileFavor : FileFavor) (dst src : Commit) : Program σ Exn Commit := do
  let index ← ctx.repo.commitIntegrate fileFavor dst src
  let index ← conflictsHandle ctx fileFavor index
  ctx.repo.commitIntegrateFinish index dst src

/-- `_AddRemoveResult`. -/
structure AddRemoveResult where
  commit : Option Commit
  added : Finset Commit
deriving DecidableEq

/-- The last loop of `_AddRemoveCommits`: apply `combined` on top of a head. -/
def applyCombined (fileFavor : FileFavor) :
    List CommitAdded → AddRemoveResult → Program σ Exn AddRemoveResult
  | [], r => pure r
  | c :: cs, r => do
      let head ← commitParentSet ctx fileFavor c.commit r.commit
      applyCombined fileFavor cs ⟨some head, if c.added then insert head r.added else r.added⟩

/-- `_AddRemoveCommits`. -/
def addRemoveCommits (fileFavor : FileFavor) (dst : Commit) (add : Finset Commit)
    (addSrc addPosition : Option Commit) (remove : Finset Commit) :
    Program σ Exn AddRemoveResult := do
  let addv ← Program.lift (sorted addSrc add)
  let plan ← Program.lift (planLoop addv addPosition dst.chain ⟨remove, false, []⟩)
  applyCombined ctx fileFavor plan.2 ⟨plan.1, ∅⟩

/-- `_MoveIsNop`. -/
def moveIsNop (src dst : Rev) (op : Op) : Except Exn Bool :=
  -- not a nop if the source and destination are different
  if !Ref.same src.ref dst.ref then .ok false
  else do
    let gap ← commitsHasGap src.commit op.src.commits
    -- moving commits with a gap between them removes the gap
    if gap then pure false
    else insertionIsNop src.commit op.dst.position op.src.commits

/-- `_FileFavor`: conflicts are for the user to resolve only between two refs. -/
def fileFavor (src : Rev) (dst : Option Rev) : FileFavor :=
  match dst with
  | none => .theirs
  | some dst =>
      if src.ref.isSome && dst.ref.isSome && Ref.same dst.ref src.ref then .theirs else .normal

/-- `(Rev&)rev = ctx.refReplace(rev.ref, commit)`.  A null commit is
dereferenced by the callback.  The assignment makes a `Rev` of the returned handle, which
peels it: an exception there comes after the ref was replaced. -/
def revReplace (rev : Rev) (ref : Ref) (commit : Option Commit) : Program σ Exn Rev :=
  match commit with
  | none => .fail .abort
  | some commit => do
      let ref ← ctx.refReplace ref commit
      ctx.refPeel ref
      pure { rev with commit := ref.commit, ref := some ref }

/-- `"source must be a reference (branch or tag)"`. -/
def sourceError : Exn := .runtimeError "source must be a reference (branch or tag)"

/-- `"destination must be a reference (branch or tag)"`. -/
def destinationError : Exn := .runtimeError "destination must be a reference (branch or tag)"

/-- The branch of `_MoveCommits` within one ref. -/
def moveWithin (op : Op) (src dst : Rev) (dstRef : Ref) : Program σ Exn (Option OpResult) := do
  let srcDstResult ← addRemoveCommits ctx (fileFavor src (some dst)) dst.commit
    op.src.commits (some src.commit) op.dst.position op.src.commits
  let dstRev ← revReplace ctx dst dstRef srcDstResult.commit
  pure (some
    { src := { rev := some src }
      dst := { rev := some dstRev
               selection := srcDstResult.added
               selectionPrev := op.src.commits } })

/-- The branch of `_MoveCommits` between two refs. -/
def moveBetween (op : Op) (src dst : Rev) (srcRef dstRef : Ref) :
    Program σ Exn (Option OpResult) := do
  -- remove the commits from the source
  let srcResult ← addRemoveCommits ctx (fileFavor src none) src.commit ∅ none none op.src.commits
  match srcResult.commit with
  | none => .fail (.runtimeError "can't move last commit")
  | some srcCommit => do
      -- add the commits to the destination
      let dstResult ← addRemoveCommits ctx (fileFavor src (some dst)) dst.commit
        op.src.commits (some src.commit) op.dst.position ∅
      let srcRev ← revReplace ctx src srcRef (some srcCommit)
      let dstRev ← revReplace ctx dst dstRef dstResult.commit
      pure (some
        { src := { rev := some srcRev, selectionPrev := op.src.commits }
          dst := { rev := some dstRev, selection := dstResult.added } })

/-- `_MoveCommits`. -/
def moveCommits (op : Op) : Program σ Exn (Option OpResult) :=
  match op.src.rev, op.dst.rev with
  | some src, some dst =>
      match src.ref, dst.ref with
      | none, _ => .fail sourceError
      | some _, none => .fail destinationError
      | some srcRef, some dstRef => do
          let nop ← Program.lift (moveIsNop src dst op)
          if nop then pure none
          else if srcRef.fullName = dstRef.fullName then
            if src.commit ≠ dst.commit then .fail .abort
            else moveWithin ctx op src dst dstRef
          else moveBetween ctx op src dst srcRef dstRef
  | _, _ => .fail .abort

/-- `_CopyCommits`. -/
def copyCommits (op : Op) : Program σ Exn (Option OpResult) :=
  match op.src.rev, op.dst.rev with
  | some src, some dst =>
      match dst.ref with
      | none => .fail destinationError
      | some dstRef => do
          let dstResult ← addRemoveCommits ctx (fileFavor src (some dst)) dst.commit
            op.src.commits (some src.commit) op.dst.position ∅
          let dstRev ← revReplace ctx dst dstRef dstResult.commit
          pure (some
            { src := { rev := some src }
              dst := { rev := some dstRev, selection := dstResult.added } })
  | _, _ => .fail .abort

/-- `_DeleteCommits`. -/
def deleteCommits (op : Op) : Program σ Exn (Option OpResult) :=
  match op.src.rev, op.dst.rev with
  | some src, none =>
      match src.ref with
      | none => .fail sourceError
      | some srcRef => do
          let srcResult ← addRemoveCommits ctx (fileFavor src none) src.commit ∅ none none
            op.src.commits
          match srcResult.commit with
          | none => .fail (.runtimeError "can't delete last commit")
          | some commit => do
              let srcRev ← revReplace ctx src srcRef (some commit)
              pure (some { src := { rev := some srcRev, selectionPrev := op.src.commits } })
  | _, _ => .fail .abort

/-- What the walk of `_CombineCommits` finds: the commit to integrate into, the
commits to integrate and the commits to attach, oldest first. -/
structure CombinePlan where
  head : Commit
  integrate : List Commit
  attach : List Commit
deriving DecidableEq

/-- The walk of `_CombineCommits`. -/
def combineLoop : List Commit → Finset Commit → List Commit → List Commit →
    Except Exn CombinePlan
  | [], _, _, _ => .error (.runtimeError "ran out of commits")
  | c :: cs, rem, integrate, attach =>
      if rem.erase c = ∅ then .ok ⟨c, integrate, attach⟩
      else if c ∈ rem then combineLoop cs (rem.erase c) (c :: integrate) attach
      else combineLoop cs (rem.erase c) integrate (c :: attach)

/-- `_CombineCommits`. -/
def combineCommits (op : Op) : Program σ Exn (Option OpResult) :=
  match op.src.rev, op.dst.rev with
  | some src, none =>
      match src.ref with
      | none => .fail sourceError
      | some srcRef =>
          if op.src.commits.card < 2 then
            .fail (.runtimeError "at least 2 commits are required to combine")
          else if commitsHasMerge op.src.commits then
            .fail (.runtimeError "can't combine with merge commit")
          else do
            let plan ← Program.lift (combineLoop src.commit.chain op.src.commits [] [])
            let favor := fileFavor src none
            let integrated ← plan.integrate.foldlM
              (fun head commit => commitIntegrate ctx favor head commit) plan.head
            let head ← plan.attach.foldlM
              (fun head commit => commitParentSet ctx favor commit (some head)) integrated
            let srcRev ← revReplace ctx src srcRef (some head)
            pure (some { src := { rev := some srcRev
                                  selection := {integrated}
                                  selectionPrev := op.src.commits } })
  | _, _ => .fail .abort

/-- The signature `_EditCommit` makes: what the text does not say is taken from
the old author. -/
def editedAuthor (origAuthor : Signature) (newMsg : CommitMessage) : Except Exn Signature :=
  signatureCreate ((newMsg.author.map CommitAuthor.name).getD origAuthor.name)
    ((newMsg.author.map CommitAuthor.email).getD origAuthor.email)
    (newMsg.time.getD origAuthor.when)

/-- The second half of `_EditCommit`: the edited text differs from the commit. -/
def editRewrite (op : Op) (src : Rev) (srcRef : Ref) (origCommit : Commit)
    (newMsg : CommitMessage) : Program σ Exn (Option OpResult) := do
  let newAuthor ← Program.lift (editedAuthor origCommit.author newMsg)
  let newCommit ← ctx.repo.commitAmendAuthor origCommit newAuthor newMsg.message
  let srcResult ← addRemoveCommits ctx (fileFavor src none) src.commit {newCommit}
    (some newCommit) (some origCommit) {origCommit}
  let srcRev ← revReplace ctx src srcRef srcResult.commit
  pure (some { src := { rev := some srcRev
                        selection := srcResult.added
                        selectionPrev := op.src.commits } })

/-- `_EditCommit`. -/
def editCommit (op : Op) : Program σ Exn (Option OpResult) :=
  match op.src.rev, theOnly op.src.commits, op.dst.rev with
  | some src, some origCommit, none =>
      match src.ref with
      | none => .fail sourceError
      | some srcRef => do
          let origMsg := commitMessageForCommit origCommit
          let origMsgStr ← Program.lift (stringFromCommitMessage origMsg)
          let newMsgStr ← ctx.spawn origMsgStr
          let newMsg := commitMessageFromString ctx.strings ctx.trim newMsgStr
          -- nop if the message wasn't changed
          if origMsg = newMsg then pure none
          else editRewrite ctx op src srcRef origCommit newMsg
  | _, _, _ => .fail .abort

/-- The `switch` of `Exec`. -/
def dispatch (op : Op) : Program σ Exn (Option OpResult) :=
  match op.type with
  | .none => pure none
  | .move => moveCommits ctx op
  | .copy => copyCommits ctx op
  | .delete => deleteCommits ctx op
  | .combine => combineCommits ctx op
  | .edit => editCommit ctx op

/-- `Exec`: a canceled conflict resolution is no result, every other exception
goes on. -/
def exec (op : Op) : Program σ Exn (Option OpResult) :=
  (dispatch ctx op).handle fun e =>
    if e = .conflictResolveCanceled then pure none else .fail e

end Operations

/-! ## What the parts of an operation do -/

section Inversion

variable {σ : Type} {ctx : Ctx σ}

/-- A result of `Exec` comes from the operation itself. -/
theorem exec_eq_some {op : Op} {s s' : σ} {res : OpResult} :
    exec ctx op s = (.ok (some res), s') ↔ dispatch ctx op s = (.ok (some res), s') := by
  unfold exec Program.handle
  rcases dispatch ctx op s with ⟨e | r, s₁⟩
  · dsimp only
    by_cases he : e = .conflictResolveCanceled
    · simp [he]
    · simp [he]
  · rfl

/-- Whether an operation returned a result. -/
def HasResult : Except Exn (Option OpResult) → Bool
  | .ok (some _) => true
  | .ok none => false
  | .error _ => false

theorem hasResult_iff {r : Except Exn (Option OpResult)} :
    HasResult r = true ↔ ∃ res, r = .ok (some res) := by
  rcases r with e | _ | res
  · simp [HasResult]
  · simp [HasResult]
  · simp [HasResult]

theorem exec_hasResult {op : Op} {s : σ} (h : HasResult (exec ctx op s).1) :
    ∃ res, dispatch ctx op s = (.ok (some res), (exec ctx op s).2) := by
  obtain ⟨res, hres⟩ := hasResult_iff.mp h
  exact ⟨res, exec_eq_some.mp (Prod.ext hres rfl)⟩

/-- A move with a result went through one of its two branches. -/
theorem moveCommits_ok {op : Op} {s s' : σ} {res : OpResult}
    (h : moveCommits ctx op s = (.ok (some res), s')) :
    ∃ src dst srcRef dstRef, op.src.rev = some src ∧ op.dst.rev = some dst ∧
      src.ref = some srcRef ∧ dst.ref = some dstRef ∧
      ((srcRef.fullName = dstRef.fullName ∧
          moveWithin ctx op src dst dstRef s = (.ok (some res), s')) ∨
        (srcRef.fullName ≠ dstRef.fullName ∧
          moveBetween ctx op src dst srcRef dstRef s = (.ok (some res), s'))) := by
  unfold moveCommits at h
  rcases hsrc : op.src.rev with _ | src
  · simp [hsrc] at h
  rcases hdst : op.dst.rev with _ | dst
  · simp [hsrc, hdst] at h
  rcases hsrcRef : src.ref with _ | srcRef
  · simp [hsrc, hdst, hsrcRef] at h
  rcases hdstRef : dst.ref with _ | dstRef
  · simp [hsrc, hdst, hsrcRef, hdstRef] at h
  simp only [hsrc, hdst, hsrcRef, hdstRef] at h
  obtain ⟨nop, s₁, hnop, hrest⟩ := Program.bind_eq_ok.mp h
  obtain ⟨-, rfl⟩ := Program.lift_eq_ok.mp hnop
  refine ⟨src, dst, srcRef, dstRef, rfl, rfl, hsrcRef, hdstRef, ?_⟩
  cases nop with
  | true => simp at hrest
  | false =>
      by_cases hsame : srcRef.fullName = dstRef.fullName
      · by_cases hcommit : src.commit = dst.commit
        · exact Or.inl ⟨hsame, by simpa [hsame, hcommit] using hrest⟩
        · simp [hsame, hcommit] at hrest
      · exact Or.inr ⟨hsame, by simpa [hsame] using hrest⟩

/-- What a copy with a result did. -/
theorem copyCommits_ok {op : Op} {s s' : σ} {res : OpResult}
    (h : copyCommits ctx op s = (.ok (some res), s')) :
    ∃ src dst dstRef r s₁ rev, op.src.rev = some src ∧ op.dst.rev = some dst ∧
      dst.ref = some dstRef ∧
      addRemoveCommits ctx (fileFavor src (some dst)) dst.commit op.src.commits
        (some src.commit) op.dst.position ∅ s = (.ok r, s₁) ∧
      revReplace ctx dst dstRef r.commit s₁ = (.ok rev, s') := by
  unfold copyCommits at h
  rcases hsrc : op.src.rev with _ | src
  · simp [hsrc] at h
  rcases hdst : op.dst.rev with _ | dst
  · simp [hsrc, hdst] at h
  rcases hdstRef : dst.ref with _ | dstRef
  · simp [hsrc, hdst, hdstRef] at h
  simp only [hsrc, hdst, hdstRef] at h
  obtain ⟨r, s₁, hbuild, hrest⟩ := Program.bind_eq_ok.mp h
  obtain ⟨rev, s₂, hreplace, hpure⟩ := Program.bind_eq_ok.mp hrest
  cases hpure
  exact ⟨src, dst, dstRef, r, s₁, rev, rfl, rfl, hdstRef, hbuild, hreplace⟩

/-- What a deletion with a result did. -/
theorem deleteCommits_ok {op : Op} {s s' : σ} {res : OpResult}
    (h : deleteCommits ctx op s = (.ok (some res), s')) :
    ∃ src srcRef r s₁ rev, op.src.rev = some src ∧ src.ref = some srcRef ∧
      addRemoveCommits ctx (fileFavor src none) src.commit ∅ none none op.src.commits s =
        (.ok r, s₁) ∧
      revReplace ctx src srcRef r.commit s₁ = (.ok rev, s') := by
  unfold deleteCommits at h
  rcases hsrc : op.src.rev with _ | src
  · simp [hsrc] at h
  rcases hdst : op.dst.rev with _ | dst
  · rcases hsrcRef : src.ref with _ | srcRef
    · simp [hsrc, hdst, hsrcRef] at h
    simp only [hsrc, hdst, hsrcRef] at h
    obtain ⟨r, s₁, hbuild, hrest⟩ := Program.bind_eq_ok.mp h
    rcases hcommit : r.commit with _ | commit
    · simp [hcommit] at hrest
    · simp only [hcommit] at hrest
      obtain ⟨rev, s₂, hreplace, hpure⟩ := Program.bind_eq_ok.mp hrest
      cases hpure
      exact ⟨src, srcRef, r, s₁, rev, rfl, hsrcRef, hbuild, by rw [hcommit]; exact hreplace⟩
  · simp [hsrc, hdst] at h

/-- A rewritten commit keeps its text and every parent but the first. -/
theorem commitParentSet_ok {favor : FileFavor} {commit : Commit} {parent : Option Commit}
    {s s' : σ} {c : Commit} (h : commitParentSet ctx favor commit parent s = (.ok c, s')) :
    ∃ tree, c = Commit.create tree (parent.toList ++ commit.parents.drop 1) commit.author
      commit.committer commit.encoding commit.message := by
  obtain ⟨_, _, _, h⟩ := Program.bind_eq_ok.mp h
  obtain ⟨_, _, _, h⟩ := Program.bind_eq_ok.mp h
  obtain ⟨tree, _, _, hc⟩ := ctx.repo.commitParentSetFinish_ok h
  exact ⟨tree, hc⟩

/-- The steps of a loop that applies commits on top of each other: the commits
to apply, what they are applied on, and the commits that come out. -/
inductive Applied (ctx : Ctx σ) (favor : FileFavor) :
    List Commit → Option Commit → σ → List Commit → σ → Prop where
  | nil (base : Option Commit) (s : σ) : Applied ctx favor [] base s [] s
  | cons {c n : Commit} {cs ns : List Commit} {base : Option Commit} {s s₁ s' : σ}
      (first : commitParentSet ctx favor c base s = (.ok n, s₁))
      (rest : Applied ctx favor cs (some n) s₁ ns s') :
      Applied ctx favor (c :: cs) base s (n :: ns) s'

/-- A run of the last loop of `_AddRemoveCommits`: the added set gets what the
entries that are flagged became. -/
theorem applyCombined_ok {favor : FileFavor}
    {combined : List CommitAdded} {r r' : AddRemoveResult} {s s' : σ}
    (h : applyCombined ctx favor combined r s = (.ok r', s')) :
    ∃ ns, Applied ctx favor (combined.map CommitAdded.commit) r.commit s ns s' ∧
      r'.commit = ns.getLast?.or r.commit ∧
      ∀ n, n ∈ r'.added ↔ n ∈ r.added ∨ ∃ c, (⟨c, true⟩, n) ∈ combined.zip ns := by
  induction combined generalizing r s with
  | nil =>
      cases h
      exact ⟨[], .nil _ _, rfl, by simp⟩
  | cons c cs ih =>
      obtain ⟨n, s₁, hfirst, h⟩ := Program.bind_eq_ok.mp h
      obtain ⟨ns, hrest, hr, hadded⟩ := ih h
      refine ⟨n :: ns, .cons hfirst hrest, ?_, ?_⟩
      · rw [hr, List.getLast?_cons]
        cases ns.getLast? <;> rfl
      · intro m
        rw [hadded m]
        rcases c with ⟨commit, added⟩
        cases added with
        | false => simp
        | true =>
            simp only [if_true, Finset.mem_insert, List.zip_cons_cons, List.mem_cons,
              Prod.mk.injEq, CommitAdded.mk.injEq, and_true]
            constructor
            · rintro ((rfl | hm) | ⟨d, hd⟩)
              · exact Or.inr ⟨commit, Or.inl ⟨rfl, rfl⟩⟩
              · exact Or.inl hm
              · exact Or.inr ⟨d, Or.inr hd⟩
            · rintro (hm | ⟨d, ⟨-, rfl⟩ | hd⟩)
              · exact Or.inl (Or.inr hm)
              · exact Or.inl (Or.inl rfl)
              · exact Or.inr ⟨d, hd⟩

/-- A run of a fold over `_CommitParentSet`. -/
theorem foldlM_commitParentSet_ok {favor : FileFavor} {cs : List Commit} {head head' : Commit}
    {s s' : σ}
    (h : cs.foldlM (fun head commit => commitParentSet ctx favor commit (some head)) head s =
      (.ok head', s')) :
    ∃ ns, Applied ctx favor cs (some head) s ns s' ∧ some head' = ns.getLast?.or (some head) := by
  induction cs generalizing head s with
  | nil =>
      cases h
      exact ⟨[], .nil _ _, rfl⟩
  | cons c cs ih =>
      rw [List.foldlM_cons] at h
      obtain ⟨n, s₁, hfirst, h⟩ := Program.bind_eq_ok.mp h
      obtain ⟨ns, hrest, hr⟩ := ih h
      refine ⟨n :: ns, .cons hfirst hrest, ?_⟩
      rw [hr, List.getLast?_cons]
      cases ns.getLast? <;> rfl

/-- A run of `_AddRemoveCommits` applies the commits to rewrite, oldest first,
on the newest commit that stays. -/
theorem addRemoveCommits_ok {favor : FileFavor} {dst : Commit} {add : Finset Commit}
    {addSrc addPosition : Option Commit} {remove : Finset Commit} {s s' : σ}
    {r : AddRemoveResult}
    (h : addRemoveCommits ctx favor dst add addSrc addPosition remove s = (.ok r, s')) :
    let added := (chainOf addSrc).filter (· ∈ add)
    ∃ base ns,
      Applied ctx favor (rewritten added addPosition remove dst.chain).reverse base s ns s' ∧
      r.commit = ns.getLast?.or base ∧
      chainOf base = kept added addPosition remove dst.chain ∧
      ∀ c ∈ remove, c ∈ dst.chain := by
  intro added
  obtain ⟨addv, s₁, hliftSorted, hrest⟩ := Program.bind_eq_ok.mp h
  obtain ⟨⟨base, combined⟩, s₂, hliftPlan, happly⟩ := Program.bind_eq_ok.mp hrest
  obtain ⟨hsorted, rfl⟩ := Program.lift_eq_ok.mp hliftSorted
  obtain ⟨hplan, rfl⟩ := Program.lift_eq_ok.mp hliftPlan
  obtain ⟨hadd, -⟩ := sorted_ok hsorted
  obtain ⟨hcombined, hbase, hremove, -⟩ := planLoop_ok (nodup_chain dst) (c := some dst) rfl hplan
  have hto : PlanState.toAdd addv ⟨remove, false, []⟩ = added := by
    simpa [PlanState.toAdd] using hadd
  rw [hto] at hcombined hbase
  obtain ⟨ns, happlied, hr, -⟩ := applyCombined_ok happly
  refine ⟨base, ns, ?_, hr, hbase, hremove⟩
  have hmap : combined.map CommitAdded.commit =
      (rewritten added addPosition remove dst.chain).reverse := by
    simp [hcombined, rewritten]
  rwa [hmap] at happlied

end Inversion

/-! ## Only `refReplace` changes refs -/

section Quiet

variable {σ : Type} {ctx : Ctx σ} {R : σ → σ → Prop} [Std.Refl R] [IsTrans σ R]

theorem Quiet.conflictsHandle (hctx : ctx.Quiet R) (favor : FileFavor) (index : Index) :
    Program.Keeps R (conflictsHandle ctx favor index) := by
  unfold Modify.conflictsHandle
  split
  · exact Program.Keeps.pure _
  · refine (hctx.repo.conflictsGet ctx.strings index).bind fun fcs => ?_
    cases favor with
    | normal => exact hctx.conflictsResolve _ _
    | theirs => exact Program.Keeps.foldlM (fun _ _ => hctx.repo.conflictResolve _ _ _) _ _
    | ours => exact Program.Keeps.fail _
    | union => exact Program.Keeps.fail _

theorem Quiet.commitParentSet (hctx : ctx.Quiet R) (favor : FileFavor) (commit : Commit)
    (parent : Option Commit) :
    Program.Keeps R (commitParentSet ctx favor commit parent) :=
  (hctx.repo.commitParentSet _ _ _).bind fun _ =>
    (Quiet.conflictsHandle hctx _ _).bind fun _ => hctx.repo.commitParentSetFinish _ _ _

theorem Quiet.commitIntegrate (hctx : ctx.Quiet R) (favor : FileFavor) (dst src : Commit) :
    Program.Keeps R (commitIntegrate ctx favor dst src) :=
  (hctx.repo.commitIntegrate _ _ _).bind fun _ =>
    (Quiet.conflictsHandle hctx _ _).bind fun _ => hctx.repo.commitIntegrateFinish _ _ _

theorem Quiet.applyCombined (hctx : ctx.Quiet R) (favor : FileFavor)
    (combined : List CommitAdded) (r : AddRemoveResult) :
    Program.Keeps R (applyCombined ctx favor combined r) := by
  induction combined generalizing r with
  | nil => exact Program.Keeps.pure _
  | cons c cs ih => exact (Quiet.commitParentSet hctx _ _ _).bind fun _ => ih _

theorem Quiet.addRemoveCommits (hctx : ctx.Quiet R) (favor : FileFavor) (dst : Commit)
    (add : Finset Commit) (addSrc addPosition : Option Commit) (remove : Finset Commit) :
    Program.Keeps R (addRemoveCommits ctx favor dst add addSrc addPosition remove) :=
  (Program.Keeps.lift (R := R) _).bind fun _ => (Program.Keeps.lift (R := R) _).bind fun _ =>
    Quiet.applyCombined hctx _ _ _

end Quiet

end Modify
end Git
end Debase
