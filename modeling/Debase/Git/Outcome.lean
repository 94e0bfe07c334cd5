import Debase.Git.Modify

/-!
# How an operation ends

Each operation computes all its commits first and replaces refs last.  So a run
either ends before any replacement, without a result, or goes on as one of the
three programs of `Replacing`: one replacement, of the source or of the
destination, or two of them.
-/

namespace Debase
namespace Git

open Library

namespace Modify

/-- The refs an operation is to rewrite, in the order it replaces them. -/
def Op.targets (op : Op) : List Ref :=
  let srcRef := op.src.rev.bind fun rev => rev.ref
  let dstRef := op.dst.rev.bind fun rev => rev.ref
  match op.type with
  | .none => []
  | .move =>
      match srcRef, dstRef with
      | some s, some d => if s.fullName = d.fullName then [d] else [s, d]
      | _, _ => []
  | .copy => dstRef.toList
  | .delete => srcRef.toList
  | .combine => srcRef.toList
  | .edit => srcRef.toList

/-- A ref that an operation is to rewrite is the source's, unless it copies, or the
destination's. -/
theorem Op.mem_targets {op : Op} {ref : Ref} (h : ref ∈ op.targets) :
    (op.type ≠ .copy ∧ ∃ src, op.src.rev = some src ∧ src.ref = some ref) ∨
      ∃ dst, op.dst.rev = some dst ∧ dst.ref = some ref := by
  have hsrc : ∀ r, op.src.rev.bind (fun rev => rev.ref) = some r →
      ∃ src, op.src.rev = some src ∧ src.ref = some r := fun r => Option.bind_eq_some_iff.mp
  have hdst : ∀ r, op.dst.rev.bind (fun rev => rev.ref) = some r →
      ∃ dst, op.dst.rev = some dst ∧ dst.ref = some r := fun r => Option.bind_eq_some_iff.mp
  unfold targets at h
  cases htype : op.type with
  | none => simp [htype] at h
  | move =>
      rw [htype] at h
      dsimp only at h
      cases hs : op.src.rev.bind fun rev => rev.ref with
      | none => simp [hs] at h
      | some s =>
          cases hd : op.dst.rev.bind fun rev => rev.ref with
          | none => simp [hs, hd] at h
          | some d =>
              rw [hs, hd] at h
              dsimp only at h
              split at h
              · obtain rfl := List.mem_singleton.mp h
                exact Or.inr (hdst _ hd)
              · rcases List.mem_pair.mp h with rfl | rfl
                · exact Or.inl ⟨by simp, hsrc _ hs⟩
                · exact Or.inr (hdst _ hd)
  | copy =>
      rw [htype] at h
      exact Or.inr (hdst _ (Option.mem_toList.mp h))
  | delete =>
      rw [htype] at h
      exact Or.inl ⟨by simp, hsrc _ (Option.mem_toList.mp h)⟩
  | combine =>
      rw [htype] at h
      exact Or.inl ⟨by simp, hsrc _ (Option.mem_toList.mp h)⟩
  | edit =>
      rw [htype] at h
      exact Or.inl ⟨by simp, hsrc _ (Option.mem_toList.mp h)⟩

section Outcome

variable {σ : Type} (ctx : Ctx σ)

/-- The programs that replace the refs of an operation and return its result. -/
inductive Replacing (op : Op) : Program σ Exn (Option OpResult) → Prop where
  | src {rev : Rev} {ref : Ref} (commit : Option Commit) {result : Rev → OpResult}
      (hrev : op.src.rev = some rev) (href : rev.ref = some ref) (htargets : op.targets = [ref])
      (hsrc : ∀ r, (result r).src.rev = some r) (hdst : ∀ r, (result r).dst.rev = none)
      (hopDst : op.dst.rev = none) :
      Replacing op (revReplace ctx rev ref commit >>= fun r => pure (some (result r)))
  | dst {src rev : Rev} {ref : Ref} (commit : Option Commit) {result : Rev → OpResult}
      (hopSrc : op.src.rev = some src) (hrev : op.dst.rev = some rev) (href : rev.ref = some ref)
      (htargets : op.targets = [ref]) (hsrc : ∀ r, (result r).src.rev = some src)
      (hdst : ∀ r, (result r).dst.rev = some r) :
      Replacing op (revReplace ctx rev ref commit >>= fun r => pure (some (result r)))
  | both {src dst : Rev} {srcRef dstRef : Ref} (srcCommit dstCommit : Commit)
      {result : Rev → Rev → OpResult} (hopSrc : op.src.rev = some src)
      (hopDst : op.dst.rev = some dst) (hsrcRef : src.ref = some srcRef)
      (hdstRef : dst.ref = some dstRef) (hne : srcRef.fullName ≠ dstRef.fullName)
      (htargets : op.targets = [srcRef, dstRef])
      (hsrc : ∀ r r', (result r r').src.rev = some r)
      (hdst : ∀ r r', (result r r').dst.rev = some r') :
      Replacing op (revReplace ctx src srcRef (some srcCommit) >>= fun r =>
        revReplace ctx dst dstRef (some dstCommit) >>= fun r' => pure (some (result r r')))

variable {ctx} {R : σ → σ → Prop} [Std.Refl R] [IsTrans σ R]

/-- With nothing removed there is always a new head. -/
theorem addRemoveCommits_isSome {favor : FileFavor} {dst : Commit}
    {add : Finset Commit} {addSrc addPosition : Option Commit} {s s' : σ}
    {r : AddRemoveResult}
    (h : addRemoveCommits ctx favor dst add addSrc addPosition ∅ s = (.ok r, s')) :
    ∃ c, r.commit = some c := by
  obtain ⟨base, ns, happlied, hr, hkept, -⟩ := addRemoveCommits_ok h
  rw [← Option.isSome_iff_exists, hr]
  by_contra hno
  simp only [Option.isSome_or, Bool.or_eq_true, not_or, List.getLast?_isSome, ne_eq,
    not_not, Option.not_isSome_iff_eq_none] at hno
  obtain ⟨rfl, rfl⟩ := hno
  -- no commit was applied and none was kept, but the destination's head is in the result
  have hrewritten : rewritten ((chainOf addSrc).filter (· ∈ add)) addPosition ∅ dst.chain = [] := by
    generalize hl : (rewritten ((chainOf addSrc).filter (· ∈ add)) addPosition ∅ dst.chain).reverse
      = l at happlied
    cases happlied
    simpa using hl
  have hedited := rewritten_append_kept ((chainOf addSrc).filter (· ∈ add)) addPosition ∅ dst.chain
  rw [hrewritten, ← hkept, Commit.chain_eq, edited] at hedited
  simp at hedited

/-- A run that ends before any replacement, or goes on as one of the programs of
`Replacing`. -/
abbrev Prepares (R : σ → σ → Prop) (ctx : Ctx σ) (op : Op)
    (x : Program σ Exn (Option OpResult)) : Prop :=
  Program.HandsOver R (fun r => HasResult r = false) (Replacing ctx op) x

omit [IsTrans σ R] in
theorem Prepares.fail {op : Op} (e : Exn) : Prepares R ctx op (.fail e) :=
  Program.HandsOver.fail rfl

omit [IsTrans σ R] in
theorem Prepares.none {op : Op} : Prepares R ctx op (pure none) :=
  Program.HandsOver.pure rfl

omit [Std.Refl R] in
theorem Prepares.bind {op : Op} {α : Type} {x : Program σ Exn α}
    {f : α → Program σ Exn (Option OpResult)} (hx : Program.Keeps R x)
    (hf : ∀ a s s', x s = (.ok a, s') → Prepares R ctx op (f a)) :
    Prepares R ctx op (x >>= f) :=
  Program.HandsOver.bind hx (fun _ => rfl) hf

theorem prepares_move (hctx : ctx.Quiet R) {op : Op} (htype : op.type = .move) :
    Prepares R ctx op (moveCommits ctx op) := by
  unfold moveCommits
  split
  · next src dst hsrc hdst =>
      split
      · exact .fail _
      · exact .fail _
      · next srcRef dstRef hsrcRef hdstRef =>
          refine .bind (Program.Keeps.lift _) fun nop _ _ _ => ?_
          have htargets : op.targets =
              if srcRef.fullName = dstRef.fullName then [dstRef] else [srcRef, dstRef] := by
            simp [Op.targets, htype, hsrc, hdst, hsrcRef, hdstRef]
          by_cases hnop : nop
          · rw [if_pos hnop]
            exact .none
          · rw [if_neg hnop]
            by_cases hsame : srcRef.fullName = dstRef.fullName
            · rw [if_pos hsame] at htargets ⊢
              split
              · exact .fail _
              · exact .bind (Quiet.addRemoveCommits hctx _ _ _ _ _ _) fun r _ _ _ =>
                  .of_mem (.dst r.commit hsrc hdst hdstRef htargets (fun _ => rfl) fun _ => rfl)
            · rw [if_neg hsame] at htargets ⊢
              refine .bind (Quiet.addRemoveCommits hctx _ _ _ _ _ _) fun srcResult _ _ _ => ?_
              split
              · exact .fail _
              · next srcCommit _ =>
                  refine .bind (Quiet.addRemoveCommits hctx _ _ _ _ _ _) fun dstResult _ _ hrun => ?_
                  obtain ⟨dstCommit, hcommit⟩ := addRemoveCommits_isSome hrun
                  rw [hcommit]
                  exact .of_mem (.both srcCommit dstCommit hsrc hdst hsrcRef hdstRef hsame
                    htargets (fun _ _ => rfl) fun _ _ => rfl)
  · exact .fail _

theorem prepares_copy (hctx : ctx.Quiet R) {op : Op} (htype : op.type = .copy) :
    Prepares R ctx op (copyCommits ctx op) := by
  unfold copyCommits
  split
  · next src dst hsrc hdst =>
      split
      · exact .fail _
      · next dstRef hdstRef =>
          have htargets : op.targets = [dstRef] := by
            simp [Op.targets, htype, hdst, hdstRef]
          exact .bind (Quiet.addRemoveCommits hctx _ _ _ _ _ _) fun r _ _ _ =>
            .of_mem (.dst r.commit hsrc hdst hdstRef htargets (fun _ => rfl) fun _ => rfl)
  · exact .fail _

theorem prepares_delete (hctx : ctx.Quiet R) {op : Op} (htype : op.type = .delete) :
    Prepares R ctx op (deleteCommits ctx op) := by
  unfold deleteCommits
  split
  · next src hsrc hdst =>
      split
      · exact .fail _
      · next srcRef hsrcRef =>
          have htargets : op.targets = [srcRef] := by
            simp [Op.targets, htype, hsrc, hsrcRef]
          refine .bind (Quiet.addRemoveCommits hctx _ _ _ _ _ _) fun r _ _ _ => ?_
          split
          · exact .fail _
          · exact .of_mem (.src _ hsrc hsrcRef htargets (fun _ => rfl) (fun _ => rfl) hdst)
  · exact .fail _

theorem prepares_combine (hctx : ctx.Quiet R) {op : Op} (htype : op.type = .combine) :
    Prepares R ctx op (combineCommits ctx op) := by
  unfold combineCommits
  split
  · next src hsrc hdst =>
      split
      · exact .fail _
      · next srcRef hsrcRef =>
          have htargets : op.targets = [srcRef] := by
            simp [Op.targets, htype, hsrc, hsrcRef]
          split
          · exact .fail _
          · split
            · exact .fail _
            · refine .bind (Program.Keeps.lift _) fun plan _ _ _ => ?_
              refine .bind (Program.Keeps.foldlM
                (fun _ _ => Quiet.commitIntegrate hctx _ _ _) _ _) fun integrated _ _ _ => ?_
              refine .bind (Program.Keeps.foldlM
                (fun _ _ => Quiet.commitParentSet hctx _ _ _) _ _) fun head _ _ _ => ?_
              exact .of_mem (.src _ hsrc hsrcRef htargets (fun _ => rfl) (fun _ => rfl) hdst)
  · exact .fail _

theorem prepares_edit (hctx : ctx.Quiet R) {op : Op} (htype : op.type = .edit) :
    Prepares R ctx op (editCommit ctx op) := by
  unfold editCommit
  split
  · next src origCommit hsrc horig hdst =>
      split
      · exact .fail _
      · next srcRef hsrcRef =>
          have htargets : op.targets = [srcRef] := by
            simp [Op.targets, htype, hsrc, hsrcRef]
          refine .bind (Program.Keeps.lift _) fun origMsgStr _ _ _ => ?_
          refine .bind (hctx.spawn _) fun newMsgStr _ _ _ => ?_
          dsimp only
          split
          · exact .none
          · refine .bind (Program.Keeps.lift _) fun newAuthor _ _ _ => ?_
            refine .bind (hctx.repo.commitCreate _ _ _ _ _ _) fun newCommit _ _ _ => ?_
            refine .bind (Quiet.addRemoveCommits hctx _ _ _ _ _ _) fun r _ _ _ => ?_
            exact .of_mem (.src r.commit hsrc hsrcRef htargets (fun _ => rfl) (fun _ => rfl) hdst)
  · exact .fail _

/-- Every operation computes first and replaces last. -/
theorem prepares_dispatch (hctx : ctx.Quiet R) (op : Op) :
    Prepares R ctx op (dispatch ctx op) := by
  unfold dispatch
  split
  · exact .none
  · next h => exact prepares_move hctx h
  · next h => exact prepares_copy hctx h
  · next h => exact prepares_delete hctx h
  · next h => exact prepares_combine hctx h
  · next h => exact prepares_edit hctx h

/-- `exec` keeps what replacing a ref keeps, if the computation before it keeps that too. -/
theorem exec_keeps {S : σ → σ → Prop} [Std.Refl S] [IsTrans σ S] (hctx : ctx.Quiet R)
    (hcomputes : ∀ s s', R s s' → S s s')
    (hreplaces : ∀ rev ref commit, Program.Keeps S (revReplace ctx rev ref commit)) (op : Op) :
    Program.Keeps S (exec ctx op) := by
  have hreplacing {x : Program σ Exn (Option OpResult)} (hx : Replacing ctx op x) :
      Program.Keeps S x := by
    cases hx with
    | src commit => exact (hreplaces _ _ commit).bind fun _ => .pure _
    | dst commit => exact (hreplaces _ _ commit).bind fun _ => .pure _
    | both srcCommit dstCommit =>
        exact (hreplaces _ _ _).bind fun _ => (hreplaces _ _ _).bind fun _ => .pure _
  refine .handle (fun s => ?_) fun e => ?_
  · rcases prepares_dispatch hctx op s with ⟨hkept, -⟩ | ⟨s₁, x, hx, hkept, hrun⟩
    · exact hcomputes _ _ hkept
    · rw [hrun]
      exact trans_of S (hcomputes _ _ hkept) (hreplacing hx s₁)
  · split
    · exact .pure none
    · exact .fail e

end Outcome

end Modify
end Git
end Debase
